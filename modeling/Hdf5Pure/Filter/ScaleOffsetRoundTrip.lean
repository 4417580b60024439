import Hdf5Pure.Filter.ScaleOffsetTheorems

/-!
# Decoding what was encoded

An encoded chunk is at most a header longer than its elements. Decoding it needs no more output than
the elements, and returns them.
-/

namespace Hdf5Pure.Filter.ScaleOffset

open List

variable {float : FloatScale} {input : Bytes} {cd : List UInt32} {p : Parms}

/-- Decoding a stored chunk gives these elements. -/
def Restores (float : FloatScale) (p : Parms) (cd : List UInt32) (stored input : Bytes) : Prop :=
  ∃ outcome, decodeChunk float stored p cd (p.nelmts * p.size) = .ok outcome ∧
    outcome.Fits stored ∧ outcome.bytes stored = input

variable {minval : ℕ} {offset : ℕ → ℕ} {fill : Option ℕ}

lemma restores_emitRaw (hp : IntegerParms cd p) (hval : minval < 2 ^ 64)
    (hlen : input.length = p.nelmts * p.size) :
    Restores float p cd (emitRaw (p.size * 8) minval input) input := by
  have hstored : (emitRaw (p.size * 8) minval input).length = headerLen + input.length := by
    rw [emitRaw, length_append, length_writeHeader]
  refine ⟨.view headerLen (headerLen + p.nelmts * p.size), ?_, ?_, ?_⟩
  · unfold emitRaw at hstored ⊢
    rw [decodeChunk_writeHeader le_rfl hp.size_le hval, decodePayload, if_pos rfl,
      if_pos (by rw [hstored, hlen])]
  · exact ⟨Nat.le_add_right _ _, by rw [hstored, hlen]⟩
  · show ((emitRaw (p.size * 8) minval input).take _).drop headerLen = input
    rw [take_of_length_le (by rw [hstored, hlen]), emitRaw,
      drop_left' (length_writeHeader _ _)]

lemma restores_emit {minbits : ℕ} (hp : IntegerParms cd p) (hval : minval < 2 ^ 64)
    (hlen : input.length = p.nelmts * p.size) (hfill : filval p cd = .ok fill)
    (hbits : minbits < p.size * 8) (hzero : minbits = 0 → fill = none)
    (h : ∀ i < p.nelmts, offset i < 2 ^ minbits ∧
      restore p minbits minval (fill.map (· &&& p.widthMask)) (offset i) =
        readValue ((input.drop (i * p.size)).take p.size) p.size p.order) :
    Restores float p cd
      (emit minbits minval (packOffsets ((range p.nelmts).map offset) minbits p.nelmts)) input := by
  have hrestored : ((range p.nelmts).flatMap fun i => writeValue
      (restore p minbits minval (fill.map (· &&& p.widthMask)) (offset i)) p.size p.order) = input := by
    conv_rhs => rw [← flatMap_elements hlen]
    refine flatMap_congr fun i hi => ?_
    rw [(h i (mem_range.mp hi)).2]
    exact writeValue_readValue _ (length_element hlen (mem_range.mp hi)) hp.size_le
  have hsize := hp.size_le
  refine ⟨.output input, ?_, trivial, rfl⟩
  unfold emit
  rw [decodeChunk_writeHeader hbits.le hp.size_le hval, decodePayload, if_neg hbits.ne]
  by_cases h0 : minbits = 0
  · -- one value, the minimum
    obtain rfl := hzero h0
    subst h0
    rw [if_pos rfl, hfill]
    show Except.ok (Outcome.output (replicate p.nelmts
      (writeValue (minval &&& p.widthMask) p.size p.order)).flatten) = _
    have hone : ∀ i < p.nelmts, restore p 0 minval none (offset i) = minval &&& p.widthMask := by
      intro i hi
      have := (h i hi).1
      rw [restore, show offset i = 0 by omega, Nat.zero_add, Nat.mod_eq_of_lt hval]
    conv_rhs => rw [← hrestored]
    rw [flatMap_congr (g := fun _ => writeValue (minval &&& p.widthMask) p.size p.order)
      fun i hi => by rw [← hone i (mem_range.mp hi)]; rfl]
    rw [flatMap_def, map_const', length_range]
  · rw [if_neg h0]
    have hoffsets : ∀ w ∈ (range p.nelmts).map offset, w < 2 ^ minbits := by
      intro w hw
      obtain ⟨i, hi, rfl⟩ := mem_map.mp hw
      exact (h i (mem_range.mp hi)).1
    have hcount : ((range p.nelmts).map offset).length = p.nelmts := by
      rw [length_map, length_range]
    obtain ⟨hpayload, -⟩ := packOffsets_spec (by omega) hoffsets
    rw [hcount] at hpayload
    have hne : packOffsets ((range p.nelmts).map offset) minbits p.nelmts ≠ [] := by
      intro hnil
      rw [hnil] at hpayload
      exact absurd hpayload (by simp)
    rw [if_neg hne, length_append, length_writeHeader, if_neg (by omega)]
    dsimp only
    rw [drop_left' (length_writeHeader _ _), hpayload, if_neg (by omega),
      if_pos hp.scalarClass, reconstructInteger, hfill]
    have hrec := reconstructFrom_packOffsets p minval (fill.map (· &&& p.widthMask)) (by omega)
      (by omega) hoffsets [] _ rfl
    rw [hcount, length_nil, Nat.zero_mul, flatMap_map, hrestored] at hrec
    show Except.ok (Outcome.output (reconstructFrom _ p minbits minval _ p.nelmts 0)) = _
    rw [hrec]

lemma length_emit_packOffsets_le {minbits : ℕ} {offsets : List ℕ} (hbits : minbits < p.size * 8)
    (hpos : 0 < p.nelmts) (hcount : offsets.length = p.nelmts)
    (hoffsets : ∀ w ∈ offsets, w < 2 ^ minbits) :
    (emit minbits minval (packOffsets offsets minbits p.nelmts)).length ≤
      p.nelmts * p.size + headerLen := by
  have hpayload : (packOffsets offsets minbits p.nelmts).length = p.nelmts * minbits / 8 + 1 := by
    by_cases h0 : minbits = 0
    · rw [packOffsets, if_pos h0, length_replicate]
    · rw [← hcount]
      exact (packOffsets_spec (by omega) hoffsets).1
  -- one bit less in each element makes room for the last byte
  have hroom : p.nelmts * minbits + p.nelmts ≤ 8 * (p.nelmts * p.size) := by
    calc p.nelmts * minbits + p.nelmts = p.nelmts * (minbits + 1) := by ring
      _ ≤ p.nelmts * (p.size * 8) := Nat.mul_le_mul_left _ hbits
      _ = 8 * (p.nelmts * p.size) := by ring
  rw [emit, length_append, length_writeHeader]
  split_ifs with hnil
  · rw [hnil] at hpayload
    exact absurd hpayload (by simp)
  · omega

/-- An encoded chunk restores its elements and, unless it is empty, is at most a header longer. -/
lemma encodeChunk_spec (float : FloatScale) (hp : IntegerParms cd p)
    (hlen : input.length = p.nelmts * p.size) :
    ∃ stored, encodeChunk float input p cd = .ok stored ∧
      (0 < p.nelmts → stored.length ≤ input.length + headerLen) ∧ Restores float p cd stored input := by
  obtain ⟨fill, hfill, hbound⟩ := hp.filval_spec
  by_cases hzero : p.nelmts = 0
  · -- a header, and a byte that stands for no element
    refine ⟨emit 0 0 [], by rw [encodeChunk, if_pos hzero], fun h => absurd h (by omega), .output [],
      ?_, trivial, ?_⟩
    · unfold emit
      have hsize := hp.size_pos
      rw [decodeChunk_writeHeader (Nat.zero_le _) hp.size_le (by norm_num), decodePayload,
        if_neg (by omega), if_pos rfl, hfill, hzero]
      rfl
    · rw [hzero, Nat.zero_mul] at hlen
      exact (length_eq_zero_iff.mp hlen).symm
  rcases hpre : precompressInteger input p (decide (cd.getD parmSign 0 = sgn2)) fill with
    ⟨minbits, minval, offsets⟩
  obtain ⟨hval, hcase⟩ := precompressInteger_spec hp.size_pos hp.size_le hlen hbound hpre
  refine ⟨emitChunk input p minbits minval offsets, ?_, ?_⟩
  · unfold encodeChunk
    rw [if_neg hzero, hfill]
    dsimp only [bind, Except.bind]
    rw [if_pos hp.scalarClass, hpre]
  · unfold emitChunk
    rcases hcase with hraw | ⟨hbits, hnone, offset, rfl, hoff⟩
    · rw [if_pos hraw.ge]
      refine ⟨fun _ => ?_, restores_emitRaw hp hval hlen⟩
      rw [emitRaw, length_append, length_writeHeader, Nat.add_comm]
    rw [if_neg (by omega)]
    refine ⟨fun hpos => ?_, restores_emit hp hval hlen hfill hbits hnone fun i hi =>
      ⟨(hoff i hi).1, (hoff i hi).2.1⟩⟩
    rw [hlen]
    apply length_emit_packOffsets_le hbits hpos
    · rw [length_map, length_range]
    · intro w hw
      obtain ⟨i, hi, rfl⟩ := mem_map.mp hw
      exact (hoff i (mem_range.mp hi)).1

/-- Decoding accepts what encoding made of a chunk, and returns the chunk. -/
lemma decode_encode {outcome : Outcome} {cap : ℕ} (hp : IntegerParms cd p)
    (hcap : p.nelmts * p.size ≤ cap) (h : encode float input cd = .ok outcome) :
    outcome.Fits input ∧
      (0 < p.nelmts → (outcome.bytes input).length ≤ input.length + headerLen) ∧
      ∃ outcome', decode float (outcome.bytes input) cd (some cap) = .ok outcome' ∧
        outcome'.Fits (outcome.bytes input) ∧ outcome'.bytes (outcome.bytes input) = input := by
  have hdecode : ∀ stored : Bytes, decode float stored cd (some cap) =
      (integerScaleFactorIsFullWidth p >>= fun fullWidth =>
        if fullWidth then .ok .unchanged
        else decodeChunk float stored p cd (p.nelmts * p.size)) := by
    intro stored
    unfold decode
    rw [hp.parse]
    dsimp only [bind, Except.bind]
    rw [if_neg (by rw [hp.scaleType]; decide), if_neg (by rw [Option.getD_some]; omega)]
  unfold encode at h
  rw [hp.parse] at h
  dsimp only [bind, Except.bind] at h
  rw [if_neg (fun hc => hc.2 hp.scaleType),
    if_neg (fun hc => absurd (hp.scalarClass.symm.trans hc.1) (by decide))] at h
  cases hfull : integerScaleFactorIsFullWidth p with
  | error e =>
    rw [hfull] at h
    cases h
  | ok full =>
    rw [hfull] at h
    dsimp only at h
    cases full with
    | true =>
      -- the same test lets the decoder pass the chunk through
      cases h
      refine ⟨trivial, fun _ => Nat.le_add_right _ _, .unchanged, ?_, trivial, rfl⟩
      rw [hdecode, hfull]
      rfl
    | false =>
      obtain ⟨hlen, h⟩ := ite_error_eq_ok.mp h
      obtain ⟨stored, hstored, hbound, outcome', hdec, hfits, hbytes⟩ :=
        encodeChunk_spec float hp (not_not.mp hlen)
      rw [hstored] at h
      cases h
      refine ⟨trivial, hbound, outcome', ?_, hfits, hbytes⟩
      rw [hdecode, hfull]
      exact hdec

/-- Encoding accepts a chunk of whole elements when the requested width is at most the type's. -/
lemma exists_encode (float : FloatScale) {full : Bool} (hp : IntegerParms cd p)
    (hfull : integerScaleFactorIsFullWidth p = .ok full) (hlen : input.length = p.nelmts * p.size) :
    ∃ outcome, encode float input cd = .ok outcome := by
  obtain ⟨stored, hstored, -⟩ := encodeChunk_spec float hp hlen
  unfold encode
  rw [hp.parse]
  dsimp only [bind, Except.bind]
  rw [if_neg (fun hc => hc.2 hp.scaleType),
    if_neg (fun hc => absurd (hp.scalarClass.symm.trans hc.1) (by decide)), hfull]
  cases full with
  | true => exact ⟨_, rfl⟩
  | false =>
    refine ⟨.output stored, ?_⟩
    dsimp only
    rw [if_neg (by decide), if_neg (not_not.mpr hlen), hstored]
    rfl

/-- **Integer scale-offset is lossless.** Every chunk of whole elements is encoded, and decoding what
was stored returns it. Where offsets are packed, the reserved offset stands for the elements that are
the fill value, and for no others. -/
theorem decompress_compress_integer (float : FloatScale) {minbits size nelmts : UInt32}
    {signed : Bool} {order : ByteOrder} {fill : Fill} {current : FilterBuffer} (spare : Bytes)
    (hpos : 1 ≤ size.toNat) (hle : size.toNat ≤ 8) (hminbits : minbits.toNat ≤ size.toNat * 8)
    (hfill : ∀ bytes, fill = .defined (some bytes) → bytes.length = size.toNat)
    (hlen : current.asSlice.length = nelmts.toNat * size.toNat) :
    ∃ cd stored spare',
      buildCdValues (.integer minbits) (.integer signed order) size nelmts fill = .ok cd ∧
      compress float current spare cd = .ok (stored, spare') ∧
      (∃ restored spare'', decompress float stored spare' cd (some (nelmts.toNat * size.toNat)) =
        .ok (restored, spare'') ∧ restored.asSlice = current.asSlice) ∧
      ∃ p, Parms.parse cd = .ok p ∧ ∀ bits, fill.bits size.toNat order.code = .ok (some bits) →
        ∀ width minval offsets,
          precompressInteger current.asSlice p signed (some bits) = (width, minval, offsets) →
          width < size.toNat * 8 → ∀ i < nelmts.toNat, offsets.getD i 0 = sentinel width ↔
            readValue ((current.asSlice.drop (i * size.toNat)).take size.toNat) size.toNat
              order.code = bits := by
  obtain ⟨given, hgiven⟩ : ∃ given, fill.bits size.toNat order.code = .ok given := by
    cases fill with
    | undefined => exact ⟨_, rfl⟩
    | defined bytes =>
      cases bytes with
      | none => exact ⟨_, rfl⟩
      | some bytes =>
        unfold Fill.bits fillBits
        dsimp only
        rw [if_pos (hfill bytes rfl)]
        exact ⟨_, rfl⟩
  obtain ⟨cd, hbuild⟩ : ∃ cd,
      buildCdValues (.integer minbits) (.integer signed order) size nelmts fill = .ok cd := by
    rw [buildCdValues_integer_eq hpos hle, hgiven]
    exact ⟨_, rfl⟩
  obtain ⟨p, hp, hsize, hnelmts, hfactor, horder, -, -⟩ := buildCdValues_integer hbuild
  rw [← hsize, ← hnelmts] at hlen
  have hnat : p.scaleFactor = minbits.toNat := by
    have := hp.size_le
    rw [hfactor, asSigned, if_pos (by omega)]
  obtain ⟨full, hfull⟩ : ∃ full, integerScaleFactorIsFullWidth p = .ok full := by
    rw [integerScaleFactorIsFullWidth, if_neg (by rw [hp.scaleType]; decide),
      if_neg (by rw [hnat]; omega)]
    exact ⟨_, rfl⟩
  obtain ⟨outcome, hencode⟩ := exists_encode float hp hfull hlen
  obtain ⟨hfits, -, outcome', hdecode, hfits', hbytes⟩ := decode_encode hp le_rfl hencode
  obtain ⟨stored, spare', happly, hstored⟩ := Outcome.apply_spec spare hfits
  rw [← hstored] at hdecode hfits' hbytes
  obtain ⟨restored, spare'', happly', hrestored⟩ := Outcome.apply_spec spare' hfits'
  refine ⟨cd, stored, spare', hbuild, ?_, ⟨restored, spare'', ?_, hrestored.trans hbytes⟩, p,
    hp.parse, ?_⟩
  · rw [compress, hencode]
    exact happly
  · rw [decompress, ← hsize, ← hnelmts, hdecode]
    exact happly'
  · intro bits hbits width minval offsets hpre hwidth i hi
    have hlt : ∀ b ∈ some bits, b < 2 ^ (p.size * 8) := by
      intro b hb
      obtain rfl := Option.mem_some.mp hb
      rw [hsize]
      exact Fill.bits_lt hbits
    obtain ⟨-, hraw | ⟨-, -, offset, rfl, hoffset⟩⟩ :=
      precompressInteger_spec hp.size_pos hp.size_le hlen hlt hpre
    · omega
    rw [← hnelmts] at hi
    obtain ⟨-, hrestore, hsentinel⟩ := hoffset i hi
    rw [hsize, horder] at hrestore hsentinel
    have hget : ((range p.nelmts).map offset).getD i 0 = offset i := by
      rw [getD_eq_getElem?_getD, getElem?_map, getElem?_range hi]
      rfl
    rw [hget]
    constructor
    · intro hoff
      rw [hoff, Option.map_some, restore, if_pos rfl, and_widthMask, Nat.mod_eq_of_lt (hlt bits rfl)]
        at hrestore
      exact hrestore.symm
    · exact hsentinel bits rfl

theorem decompress_compress_integer_bytes : ∃ cd stored spare',
    buildCdValues (.integer 0) (.integer true .bigEndian) 1 3 (.defined (some [7])) = .ok cd ∧
      compress ⟨fun _ _ _ _ _ => .ok [], fun _ _ _ => (0, 0, [])⟩ (.borrowed [7, 9, 255]) [] cd =
        .ok (stored, spare') ∧
      ∃ restored spare'', decompress ⟨fun _ _ _ _ _ => .ok [], fun _ _ _ => (0, 0, [])⟩ stored
        spare' cd (some 3) = .ok (restored, spare'') ∧ restored.asSlice = [7, 9, 255] := by
  obtain ⟨cd, stored, spare', hbuild, hcompress, hdecompress, -⟩ :=
    @decompress_compress_integer ⟨fun _ _ _ _ _ => .ok [], fun _ _ _ => (0, 0, [])⟩ 0 1 3 true
      .bigEndian (.defined (some [7])) (.borrowed [7, 9, 255]) [] (by decide) (by decide) (by decide)
      (by
        intro bytes h
        cases h
        rfl) rfl
  exact ⟨cd, stored, spare', hbuild, hcompress, hdecompress⟩

end Hdf5Pure.Filter.ScaleOffset
