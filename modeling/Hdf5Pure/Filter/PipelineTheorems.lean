import Hdf5Pure.Filter.DeflateTheorems
import Hdf5Pure.Filter.FletcherTheorems
import Hdf5Pure.Filter.LzfTheorems
import Hdf5Pure.Filter.Pipeline
import Hdf5Pure.Filter.ScaleOffsetRoundTrip

/-!
# Lossless pipelines

Each lossless filter is reversed by its decoder whenever the decoder's bound admits the filter's
input, which it does: the bounds follow the worst case of every filter before it.
-/

namespace Hdf5Pure.Filter

open List

/-- A byte slice: its length fits `isize`. -/
structure Slice where
  bytes : Bytes
  length_le : bytes.length ≤ vecMax

/-! ## Storage -/

variable {window : OutputWindow} {cap nelmts : ℕ}

lemma OutputWindow.slice_writeAt_zero {out : Bytes} (h : out.length = window.stop) :
    (window.writeAt 0 out).slice = out := by
  rw [slice_writeAt (by omega), take_zero, nil_append, Nat.zero_add, h,
    drop_of_length_le (length_slice window).le, append_nil]

lemma FilterBuffer.overwrite_same (buffer : FilterBuffer) (spare : Bytes)
    (f : Bytes → Bytes → Bytes)
    (hf : ∀ result, result.length = buffer.asSlice.length →
      (f buffer.asSlice result).length = buffer.asSlice.length) :
    ∃ view result, result.length = buffer.asSlice.length ∧
      (buffer.overwrite spare fun input window =>
        .ok (input.length, (window.resize input.length).writeAt 0
          (f input (window.resize input.length).slice))) = .ok (view, buffer.recycle spare) ∧
      view.asSlice = f buffer.asSlice result := by
  have hlen : ((OutputWindow.new spare).resize buffer.asSlice.length).slice.length =
      buffer.asSlice.length := by
    rw [OutputWindow.length_slice, OutputWindow.stop_resize]
  have hle : buffer.asSlice.length ≤ (((OutputWindow.new spare).resize buffer.asSlice.length).writeAt 0
      (f buffer.asSlice ((OutputWindow.new spare).resize buffer.asSlice.length).slice)).stop := by
    rw [OutputWindow.stop_writeAt, OutputWindow.stop_resize]
  obtain ⟨view, hfinish, hview⟩ := asSlice_finish hle
  refine ⟨view, _, hlen, by simp only [overwrite, bind, Except.bind, hfinish], ?_⟩
  rw [hview, OutputWindow.slice_writeAt_zero (by rw [hf _ hlen, OutputWindow.stop_resize])]
  exact take_of_length_le (hf _ hlen).le

/-! ## Stages -/

section Stages

variable {codecs : Codecs} {ctx : ChunkContext} {filter : FilterStep}

def Reverses (codecs : Codecs) (ctx : ChunkContext) (filter : FilterStep) (cap : ℕ)
    (input stored : Bytes) : Prop :=
  ∀ (view : FilterBuffer) (spare : Bytes), view.asSlice = stored →
    ∃ view' spare', decompressStage codecs ctx filter (some cap) view spare = .ok (view', spare') ∧
      view'.asSlice = input

variable {current out : FilterBuffer} {spare spare' : Bytes}

section

variable (h : compressStage codecs ctx filter current spare = .ok (out, spare'))

include h

lemma compressStage_shuffle (hid : filter.id = filterShuffle) (cap : ℕ) :
    out.asSlice.length = current.asSlice.length ∧
      Reverses codecs ctx filter cap current.asSlice out.asSlice := by
  unfold compressStage at h
  rw [if_pos hid] at h
  by_cases hone : ctx.elementSize = 1
  · rw [if_pos hone] at h
    cases h
    refine ⟨rfl, fun view spare hview => ⟨view, spare, ?_, hview⟩⟩
    rw [decompressStage, if_pos hid, if_pos hone]
  · have hn : 1 < ctx.elementSize := by
      have := ctx.elementSize_pos
      omega
    rw [if_neg hone] at h
    obtain ⟨stored, result, hres, heq, hstored⟩ := FilterBuffer.overwrite_same current spare
      (fun input result => shuffleCompressInto input ctx.elementSize result)
      (fun _ hr => length_shuffleCompressInto hn hr)
    rw [heq] at h
    cases h
    have hlen := length_shuffleCompressInto hn hres
    refine ⟨by rw [hstored, hlen], ?_⟩
    intro view spare' hview
    obtain ⟨view', result', hresult', heq', hview'⟩ := FilterBuffer.overwrite_same view spare'
      (fun input result => shuffleDecompressInto input ctx.elementSize result)
      (fun result hr => by
        rw [shuffleDecompressInto_spec hn hr, length_map, length_range])
    refine ⟨view', view.recycle spare', ?_, ?_⟩
    · rw [decompressStage, if_pos hid, if_neg hone]
      exact heq'
    · rw [hview', hview, hstored]
      rw [hview, hstored, hlen] at hresult'
      exact shuffleDecompressInto_shuffleCompressInto hn hres hresult'

/-- Deflating at a valid level is reversed within a bound that admits the input. -/
lemma compressStage_deflate (hz : codecs.zlib.Lawful) (hid : filter.id = filterDeflate)
    (hcap : current.asSlice.length ≤ cap) (hmax : current.asSlice.length < usizeMax) :
    out.asSlice.length ≤ current.asSlice.length + current.asSlice.length / 16 + 64 ∧
      Reverses codecs ctx filter cap current.asSlice out.asSlice := by
  simp +decide only [compressStage, hid, if_true, if_false, bind_eq_ok] at h
  obtain ⟨level, hlevel, h⟩ := h
  cases h
  have hle : level ≤ 9 := by
    unfold deflateLevel at hlevel
    split at hlevel
    · cases hlevel
      decide
    · split_ifs at hlevel with hnine
      exact Except.ok.inj hlevel ▸ hnine
  rw [FilterBuffer.asSlice_ownedVec]
  refine ⟨hz.length_le level hle _, fun view spare' hview => ?_⟩
  simp +decide only [decompressStage, hid, if_true, if_false]
  exact deflateDecompress_deflate hz hle hcap hmax hview spare'

lemma compressStage_lzf (hid : filter.id = filterLzf) (hcap : current.asSlice.length ≤ cap) :
    out.asSlice.length ≤ 2 * current.asSlice.length ∧
      Reverses codecs ctx filter cap current.asSlice out.asSlice := by
  simp +decide only [compressStage, hid, if_true, if_false] at h
  cases h
  rw [FilterBuffer.asSlice_ownedVec]
  refine ⟨Lzf.length_compressInto_le _, fun view spare' hview => ?_⟩
  refine ⟨.ownedVec current.asSlice, view.recycle spare', ?_, FilterBuffer.asSlice_ownedVec _⟩
  simp +decide only [decompressStage, hid, if_true, if_false, FilterBuffer.materialize, hview]
  rw [Lzf.decompressInto_compressInto hcap]
  rfl

lemma compressStage_fletcher32 (hid : filter.id = filterFletcher32) (cap : ℕ) :
    out.asSlice.length = current.asSlice.length + 4 ∧
      Reverses codecs ctx filter cap current.asSlice out.asSlice := by
  simp +decide only [compressStage, hid, if_true, if_false] at h
  have hout : out.asSlice = current.asSlice ++ checksumBytes current.asSlice := by
    rw [← FilterBuffer.asSlice_append current spare, Except.ok.inj h]
  refine ⟨by rw [hout, length_append, length_checksumBytes], fun view spare' hview => ?_⟩
  rw [hout] at hview
  have hle : current.asSlice.length ≤ view.asSlice.length := by
    rw [hview, length_append]
    omega
  obtain ⟨view', hnarrow, hslice⟩ := FilterBuffer.asSlice_narrow (Nat.zero_le _) hle
  refine ⟨view', spare', ?_, ?_⟩
  · simp +decide only [decompressStage, hid, if_true, if_false, hview, fletcher32Verify_append]
    dsimp only [bind, Except.bind]
    rw [hnarrow]
  · rw [hslice, hview, drop_zero, take_left]

lemma compressStage_scaleoffset {p : ScaleOffset.Parms} (hid : filter.id = filterScaleoffset)
    (hp : ScaleOffset.IntegerParms filter.clientData p) (hpos : 0 < p.nelmts) (cap : ℕ)
    (hcap : p.nelmts * p.size ≤ cap) :
    out.asSlice.length ≤ current.asSlice.length + ScaleOffset.headerLen ∧
      Reverses codecs ctx filter cap current.asSlice out.asSlice := by
  simp +decide only [compressStage, hid, if_true, if_false, ScaleOffset.compress,
    bind_eq_ok] at h
  obtain ⟨outcome, henc, h⟩ := h
  obtain ⟨hfits, hlen, outcome', hdec, hfits', hbytes⟩ := ScaleOffset.decode_encode hp hcap henc
  obtain ⟨view, spare'', happly, hview⟩ := ScaleOffset.Outcome.apply_spec spare hfits
  rw [happly] at h
  cases h
  refine ⟨by rw [hview]; exact hlen hpos, fun stored spare₁ hstored => ?_⟩
  rw [hview] at hstored
  rw [← hstored] at hdec hfits' hbytes
  obtain ⟨view', spare₂, happly', hview'⟩ := ScaleOffset.Outcome.apply_spec spare₁ hfits'
  refine ⟨view', spare₂, ?_, by rw [hview', hbytes]⟩
  simp +decide only [decompressStage, hid, if_true, if_false, ScaleOffset.decompress, hdec]
  exact happly'

end

/-- A filter that loses nothing of a chunk of `nelmts` elements. -/
inductive Lossless (ctx : ChunkContext) (nelmts : ℕ) (filter : FilterStep) : Prop where
  | shuffle (h : filter.id = filterShuffle)
  | lzf (h : filter.id = filterLzf)
  | fletcher32 (h : filter.id = filterFletcher32)
  | deflate (h : filter.id = filterDeflate)
  | scaleOffset (h : filter.id = filterScaleoffset) {minbits size count : UInt32} {signed : Bool}
      {order : ScaleOffset.ByteOrder} {fill : ScaleOffset.Fill}
      (hbuild : ScaleOffset.buildCdValues (.integer minbits) (.integer signed order) size count fill =
        .ok filter.clientData)
      (hsize : size.toNat = ctx.elementSize) (hcount : count.toNat = nelmts)

lemma le_saturatingAdd {n a b : ℕ} (h : n ≤ a + b) (hmax : n ≤ usizeMax) : n ≤ saturatingAdd a b :=
  le_min h hmax

lemma le_saturatingAdd_add {n a b c : ℕ} (h : n ≤ a + b + c) (hmax : n ≤ usizeMax) :
    n ≤ saturatingAdd a b + c := by
  unfold saturatingAdd
  rcases min_choice (a + b) usizeMax with heq | heq <;> rw [heq]
  · exact h
  · exact hmax.trans (Nat.le_add_right _ _)

/-- A stage's output is within its worst case, and its decoder reverses it. -/
lemma compressStage_spec (hz : codecs.zlib.Lawful) (hf : Lossless ctx nelmts filter)
    (hpos : 0 < nelmts) (h : compressStage codecs ctx filter current spare = .ok (out, spare'))
    (hcap : current.asSlice.length ≤ cap) (hexp : nelmts * ctx.elementSize ≤ cap)
    (hmax : current.asSlice.length ≤ vecMax) (hout : out.asSlice.length ≤ vecMax) :
    out.asSlice.length ≤ maxForwardOutput filter cap ∧
      Reverses codecs ctx filter cap current.asSlice out.asSlice := by
  have hwords : vecMax < usizeMax := by decide
  cases hf with
  | shuffle hid =>
    obtain ⟨hlen, hrev⟩ := compressStage_shuffle h hid cap
    refine ⟨?_, hrev⟩
    simpa +decide only [maxForwardOutput, hid, if_false, hlen] using hcap
  | lzf hid =>
    obtain ⟨hlen, hrev⟩ := compressStage_lzf h hid hcap
    refine ⟨?_, hrev⟩
    simp +decide only [maxForwardOutput, hid, if_true, if_false]
    exact le_min (by omega) (hout.trans hwords.le)
  | fletcher32 hid =>
    obtain ⟨hlen, hrev⟩ := compressStage_fletcher32 h hid cap
    refine ⟨?_, hrev⟩
    rw [maxForwardOutput, if_pos hid]
    exact le_saturatingAdd (by omega) (hout.trans hwords.le)
  | deflate hid =>
    obtain ⟨hlen, hrev⟩ := compressStage_deflate h hz hid hcap (hmax.trans_lt hwords)
    refine ⟨?_, hrev⟩
    simp +decide only [maxForwardOutput, hid, if_true, if_false]
    exact le_saturatingAdd (le_saturatingAdd_add (by omega) (hout.trans hwords.le))
      (hout.trans hwords.le)
  | scaleOffset hid hbuild hsize hcount =>
    obtain ⟨p, hp, hpsize, hpnelmts, -⟩ := ScaleOffset.buildCdValues_integer hbuild
    rw [hsize] at hpsize
    rw [hcount] at hpnelmts
    obtain ⟨hlen, hrev⟩ := compressStage_scaleoffset h hid hp (by omega) cap
      (by rw [hpsize, hpnelmts]; exact hexp)
    refine ⟨?_, hrev⟩
    simp +decide only [maxForwardOutput, hid, if_true, if_false]
    exact le_saturatingAdd (by omega) (hout.trans hwords.le)

/-! ## Bounds -/

/-- What the filters before a decoder can make of `size` bytes. -/
def worstCase (filters : List FilterStep) (size : ℕ) : ℕ :=
  filters.foldl (fun size filter => maxForwardOutput filter size) size

/-- With every filter active, the bound of a decoder is the worst case of the filters before it. -/
lemma innerOutputCap_append (before after : List FilterStep) (size : ℕ) :
    innerOutputCap (before ++ after) 0 (some size) before.length = some (worstCase before size) := by
  unfold innerOutputCap worstCase
  rw [Option.map_some, zipIdx_append, take_left' (length_zipIdx)]
  simp only [Nat.zero_testBit, Bool.false_eq_true, if_false]
  congr 1
  generalize 0 = start
  induction before generalizing size start with
  | nil => rfl
  | cons filter before ih =>
    exact ih _ _

lemma le_maxForwardOutput {n size : ℕ} (h : n ≤ size) (hmax : n ≤ usizeMax) (filter : FilterStep) :
    n ≤ maxForwardOutput filter size := by
  have hadd : ∀ k, n ≤ saturatingAdd size k := fun k =>
    le_saturatingAdd (h.trans (Nat.le_add_right _ _)) hmax
  unfold maxForwardOutput
  split_ifs
  · exact hadd 4
  · exact le_min (by omega) hmax
  · exact hadd _
  · exact le_saturatingAdd ((hadd _).trans (Nat.le_add_right _ _)) hmax
  · exact h

/-! ## Runs -/

/-- The positions of `count` filters from `start` on, last first. -/
def positionsFrom (start count : ℕ) : List (ℕ × Bool) :=
  ((range' start count).map fun i => (i, false)).reverse

lemma allocated_eq_ok {buffer : FilterBuffer × Bytes} {result : FilterBuffer × Bytes} :
    allocated buffer = .ok result ↔ buffer.1.asSlice.length ≤ vecMax ∧ result = buffer := by
  unfold allocated
  split_ifs with h
  · simp [h, eq_comm]
  · simp [h]

/-- Reversing the filters after some point restores what was there, for any bytes in the storage. -/
lemma decompressFrom_compressFrom (hz : codecs.zlib.Lawful) (hpos : 0 < nelmts)
    (hexp : nelmts * ctx.elementSize ≤ vecMax) (before : List FilterStep) {after : List FilterStep}
    (hf : ∀ filter ∈ after, Lossless ctx nelmts filter)
    (h : compressFrom codecs ctx after current spare = .ok (out, spare'))
    (hcap : current.asSlice.length ≤ worstCase before (nelmts * ctx.elementSize))
    (hsize : nelmts * ctx.elementSize ≤ worstCase before (nelmts * ctx.elementSize))
    (hmax : current.asSlice.length ≤ vecMax) (rest : List (ℕ × Bool)) {view : FilterBuffer}
    (hview : view.asSlice = out.asSlice) (scratch : Bytes) :
    ∃ view' scratch', view'.asSlice = current.asSlice ∧
      decompressFrom codecs ctx (before ++ after) 0 (some (nelmts * ctx.elementSize))
          (positionsFrom before.length after.length ++ rest) view scratch =
        decompressFrom codecs ctx (before ++ after) 0 (some (nelmts * ctx.elementSize)) rest view'
          scratch' := by
  have hwords : vecMax < usizeMax := by decide
  -- by induction on the filters that are still to be applied
  induction after generalizing before current spare view scratch rest with
  | nil =>
    cases h
    exact ⟨view, scratch, hview, rfl⟩
  | cons filter after ih =>
    simp only [compressFrom, bind_eq_ok, allocated_eq_ok] at h
    obtain ⟨⟨next, spare₁⟩, ⟨staged, hstage, hout, rfl⟩, h⟩ := h
    obtain ⟨hbound, hrev⟩ := compressStage_spec hz (hf filter mem_cons_self) hpos hstage hcap
      hsize hmax hout
    have hsplit : before ++ filter :: after = (before ++ [filter]) ++ after := by
      rw [append_assoc, singleton_append]
    have hworst : worstCase (before ++ [filter]) (nelmts * ctx.elementSize) =
        maxForwardOutput filter (worstCase before (nelmts * ctx.elementSize)) := by
      rw [worstCase, foldl_append]
      rfl
    obtain ⟨view₁, scratch₁, hview₁, heq⟩ := ih (before ++ [filter])
      (fun f hmem => hf f (mem_cons_of_mem _ hmem)) h (by rw [hworst]; exact hbound)
      (by rw [hworst]; exact le_maxForwardOutput hsize (hexp.trans hwords.le) filter) hout
      ((before.length, false) :: rest) hview scratch
    obtain ⟨view₂, scratch₂, hdec, hview₂⟩ := hrev view₁ scratch₁ hview₁
    refine ⟨view₂, scratch₂, hview₂, ?_⟩
    rw [length_append, length_singleton] at heq
    rw [length_cons, positionsFrom, range'_succ, map_cons, reverse_cons,
      append_assoc, singleton_append, hsplit, ← positionsFrom, heq, decompressFrom,
      if_neg (by decide)]
    dsimp only
    rw [← hsplit, innerOutputCap_append,
      show (before ++ filter :: after).getD before.length ⟨0, []⟩ = filter by
        rw [getD_append_right _ _ _ _ le_rfl, Nat.sub_self]; rfl, hdec]
    dsimp only [bind, Except.bind]
    rw [allocated_eq_ok.mpr ⟨show view₂.asSlice.length ≤ vecMax by rw [hview₂]; exact hmax, rfl⟩]

/-! ## Chunks -/

lemma checkedProduct_eq {dims : List ℕ} (hpos : 0 < dims.prod) (hlt : dims.prod < 2 ^ 64) :
    checkedProduct dims = some dims.prod := by
  have hfold : ∀ (dims : List ℕ) (acc : ℕ), 0 < acc * dims.prod → acc * dims.prod < 2 ^ 64 →
      dims.foldlM (fun acc d => if acc * d < 2 ^ 64 then some (acc * d) else none) acc =
        some (acc * dims.prod) := by
    intro dims
    induction dims with
    | nil =>
      intro acc _ _
      rw [prod_nil, Nat.mul_one]
      rfl
    | cons d dims ih =>
      intro acc hpos hlt
      rw [prod_cons, ← Nat.mul_assoc] at hpos hlt
      have hrest : 0 < dims.prod := Nat.pos_of_mul_pos_left hpos
      have hd : acc * d < 2 ^ 64 := (Nat.le_mul_of_pos_right _ hrest).trans_lt hlt
      rw [foldlM_cons, if_pos hd, prod_cons, ← Nat.mul_assoc]
      exact ih (acc * d) hpos hlt
  have := hfold dims 1 (by rwa [Nat.one_mul]) (by rwa [Nat.one_mul])
  rwa [Nat.one_mul] at this

lemma expectedChunkLen_eq (hpos : 0 < ctx.chunkDims.prod)
    (hle : ctx.chunkDims.prod * ctx.elementSize ≤ vecMax) :
    expectedChunkLen ctx = some (ctx.chunkDims.prod * ctx.elementSize) := by
  have hwords : vecMax < 2 ^ 64 := by decide
  have hprod : ctx.chunkDims.prod < 2 ^ 64 :=
    ((Nat.le_mul_of_pos_right _ ctx.elementSize_pos).trans hle).trans_lt hwords
  rw [expectedChunkLen, checkedProduct_eq hpos hprod]
  dsimp only [bind, Option.bind]
  rw [if_pos (hle.trans_lt hwords)]
  exact if_neg (Nat.mul_pos hpos ctx.elementSize_pos).ne'

end Stages

/-- Reversing a lossless pipeline returns the chunk, whatever the reused storage holds. -/
theorem decompressChunkWith_compressChunkWith {codecs : Codecs} (hz : codecs.zlib.Lawful)
    {ctx : ChunkContext} {data : Slice}
    (hlen : data.bytes.length = ctx.chunkDims.prod * ctx.elementSize) (hpos : 0 < data.bytes.length)
    {filters : List FilterStep} (hf : ∀ filter ∈ filters, Lossless ctx ctx.chunkDims.prod filter)
    {spare spare' stored : Bytes}
    (h : compressChunkWith codecs ctx spare data.bytes filters = .ok (stored, spare'))
    (scratch : Bytes) :
    ∃ scratch', decompressChunkWith codecs ctx scratch stored filters 0 =
      .ok (data.bytes, scratch') := by
  have hmax := data.length_le
  have hprod : 0 < ctx.chunkDims.prod := Nat.pos_of_mul_pos_right (hlen ▸ hpos)
  unfold compressChunkWith at h
  split at h
  · cases h
  rename_i positions hmask
  obtain ⟨⟨out, spare₁⟩, hfrom, h⟩ := bind_eq_ok.mp h
  cases h
  have hpositions : positions.reverse = positionsFrom 0 filters.length := by
    unfold maskPositions at hmask
    split_ifs at hmask
    rw [← Except.ok.inj hmask, positionsFrom, range_eq_range']
    simp
  have hstored : (FilterBuffer.borrowed out.intoOwned).asSlice = out.asSlice :=
    FilterBuffer.intoOwned_eq out
  obtain ⟨view, scratch', hview, heq⟩ := decompressFrom_compressFrom hz hprod (hlen ▸ hmax) [] hf
    hfrom hlen.le le_rfl hmax [] hstored scratch
  refine ⟨scratch', ?_⟩
  rw [append_nil, nil_append, length_nil] at heq
  rw [decompressChunkWith, hmask]
  dsimp only
  rw [expectedChunkLen_eq hprod (hlen ▸ hmax), hpositions, heq, decompressFrom]
  dsimp only [bind, Except.bind]
  rw [hview, FilterBuffer.asSlice_borrowed, if_neg (not_not.mpr hlen), FilterBuffer.intoOwned_eq,
    hview, FilterBuffer.asSlice_borrowed]

def adler32 (data : Bytes) : Bytes :=
  let (a, b) := data.foldl (fun (a, b) x => ((a + x.toNat) % 65521, (b + a + x.toNat) % 65521)) (1, 0)
  [b / 256, b, a / 256, a].map UInt8.ofNat

/-- A zlib stream of one stored block, as level 0 writes up to 65535 bytes. -/
def storedStream (data : Bytes) : Bytes :=
  let n := data.length
  [0x78, 1, 1] ++ [n, n / 256, 65535 - n, (65535 - n) / 256].map UInt8.ofNat ++ data ++ adler32 data

/-- The bytes read of a stream of which `written` bytes are decoded. -/
def storedRead (written : ℕ) : ℕ := if written = 0 then 0 else 7 + written

/-- A codec that stores the bytes in one block. A decoder is the bytes that it has written. -/
def storingZlib : Zlib where
  Decoder := ℕ
  deflate _ := storedStream
  new := 0
  totalIn := storedRead
  totalOut d := d
  decompress d input room _ :=
    let body := (input.drop (7 + d - storedRead d)).rdrop 4
    ⟨.ok (if body.length ≤ room then .streamEnd else .ok), d + (body.take room).length,
      body.take room⟩
  length_out_le _ _ room _ := length_take_le room _

/-- A decoder finds the bytes that are left between the header of a block and the checksum. -/
lemma storedStream_body {data : Bytes} {d : ℕ} (h : d ≤ data.length) :
    (((storedStream data).drop (storedRead d)).drop (7 + d - storedRead d)).rdrop 4 =
      data.drop d := by
  have hread : storedRead d + (7 + d - storedRead d) = 7 + d := by
    unfold storedRead
    split_ifs <;> omega
  have hsum : (adler32 data).length = 4 := rfl
  rw [drop_drop, hread, ← drop_drop]
  show ((data ++ adler32 data).drop d).rdrop 4 = data.drop d
  rw [drop_append_of_le_length h, ← hsum, rdrop_append_length]

lemma length_storedStream (data : Bytes) : (storedStream data).length = 7 + data.length + 4 := by
  simp only [storedStream, adler32, length_append, length_map, length_cons, length_nil]

lemma storingZlib_lawful : storingZlib.Lawful where
  length_le _ _ data := by
    show (storedStream data).length ≤ _
    rw [length_storedStream]
    omega
  inflates _ _ data := by
    refine ⟨fun d i o => i = storedRead o ∧ o = d ∧ o ≤ data.length,
      ⟨⟨rfl, rfl, Nat.zero_le _⟩, ?_, ?_, ?_⟩⟩
    · rintro d i o ⟨rfl, rfl, hle⟩
      refine ⟨rfl, rfl, ?_, hle⟩
      show storedRead o ≤ (storedStream data).length
      rw [length_storedStream]
      unfold storedRead
      split_ifs <;> omega
    · rintro d i o ⟨rfl, rfl, hle⟩ room
      dsimp only [storingZlib]
      rw [storedStream_body hle]
      have hlen : ((data.drop o).take room).length = min room (data.length - o) := by
        rw [length_take, length_drop]
      refine ⟨_, storedRead (o + ((data.drop o).take room).length), rfl, ?_, ⟨rfl, rfl, ?_⟩, ?_, ?_, ?_⟩
      · rw [length_take, ← take_eq_take_min]
      · omega
      · unfold storedRead
        split_ifs <;> omega
      · intro hend
        have hroom : (data.drop o).length ≤ room := by
          by_contra hc
          rw [if_neg hc] at hend
          cases hend
        rw [length_drop] at hroom
        omega
      · intro hmore
        left
        have hroom : ¬ (data.drop o).length ≤ room := fun hc => hmore (if_pos hc)
        rw [length_drop] at hroom
        omega
    · intro room hroom
      have htake : data.take room = data := take_of_length_le hroom.le
      dsimp only [storingZlib]
      have hbody := storedStream_body (Nat.zero_le data.length)
      rw [drop_zero, show storedRead 0 = 0 from rfl, drop_zero] at hbody
      rw [show storedRead 0 = 0 from rfl, hbody, htake, if_pos hroom.le]
      exact ⟨rfl, rfl, Nat.zero_add _⟩

def storingCodecs : Codecs := ⟨storingZlib, ⟨fun _ _ _ _ _ => .ok [], fun _ _ _ => (0, 0, [])⟩⟩

def mixedFilters : List FilterStep :=
  [⟨filterShuffle, []⟩, ⟨filterFletcher32, []⟩, ⟨filterDeflate, [0]⟩, ⟨filterLzf, []⟩,
    ⟨filterFletcher32, []⟩]

/-- Three elements of two bytes through five filters, over storage that is in use. -/
theorem decompressChunkWith_mixedFilters :
    compressChunkWith storingCodecs ⟨[3], 2, by decide⟩ [7, 7, 7] [1, 0, 2, 0, 3, 0] mixedFilters =
        .ok ([20, 120, 1, 1, 10, 0, 245, 255, 1, 2, 3, 0, 0, 0, 2, 4, 6, 9, 0, 103, 0, 28, 11, 34,
          86, 41], [120, 1, 1, 10, 0, 245, 255, 1, 2, 3, 0, 0, 0, 2, 4, 6, 9, 0, 103, 0, 28]) ∧
      ∃ scratch, decompressChunkWith storingCodecs ⟨[3], 2, by decide⟩ [9, 9]
        [20, 120, 1, 1, 10, 0, 245, 255, 1, 2, 3, 0, 0, 0, 2, 4, 6, 9, 0, 103, 0, 28, 11, 34, 86, 41]
        mixedFilters 0 =
          .ok ([1, 0, 2, 0, 3, 0], scratch) := by
  refine (and_iff_left_of_imp fun hcompress => ?_).mpr (by decide +kernel)
  have hf : ∀ filter ∈ mixedFilters, Lossless ⟨[3], 2, by decide⟩ [3].prod filter := by
    intro filter hmem
    simp only [mixedFilters, mem_cons, not_mem_nil, or_false] at hmem
    rcases hmem with rfl | rfl | rfl | rfl | rfl
    · exact .shuffle rfl
    · exact .fletcher32 rfl
    · exact .deflate rfl
    · exact .lzf rfl
    · exact .fletcher32 rfl
  exact @decompressChunkWith_compressChunkWith storingCodecs storingZlib_lawful
    ⟨[3], 2, by decide⟩ ⟨[1, 0, 2, 0, 3, 0], by decide⟩ rfl (by decide) _ hf _ _ _ hcompress [9, 9]

/-- **A checksummed chunk never decodes with a wrong byte.** When Fletcher32 is the last filter and a
chunk does not skip it, a copy with any one byte changed, in the data or in the checksum, is a
mismatch, whatever filters come before and whatever the reused storage holds. -/
theorem decompressChunkWith_detects {codecs : Codecs} {ctx : ChunkContext}
    {filters : List FilterStep} {last : FilterStep} {mask : ℕ}
    (hid : last.id = filterFletcher32) (hactive : mask.testBit filters.length = false)
    {before after spare : Bytes} {old new : UInt8} {chunk : Bytes × Bytes}
    (h : decompressChunkWith codecs ctx spare (before ++ old :: after) (filters ++ [last]) mask =
      .ok chunk) (hne : old ≠ new) (scratch : Bytes) :
    ∃ stored computed,
      decompressChunkWith codecs ctx scratch (before ++ new :: after) (filters ++ [last]) mask =
        .error (.fletcher32Mismatch stored computed) := by
  have hlast : (filters ++ [last]).getD filters.length ⟨0, []⟩ = last := by simp
  unfold decompressChunkWith maskPositions at h ⊢
  simp only [length_append, length_singleton] at h ⊢
  split_ifs at h ⊢ with hcount
  -- the last filter is the first to be reversed
  simp only [range_succ, map_append, map_singleton, reverse_append,
    reverse_singleton, singleton_append, hactive, decompressFrom, hlast, decompressStage,
    hid, FilterBuffer.asSlice_borrowed, Bool.false_eq_true, if_false] at h ⊢
  simp +decide only [if_true, if_false, bind_eq_ok] at h ⊢
  obtain ⟨-, ⟨-, ⟨-, ⟨data, hverify, -⟩, -⟩, -⟩, -⟩ := h
  obtain ⟨stored, computed, heq⟩ := fletcher32Verify_changed hverify hne
  exact ⟨stored, computed, by rw [heq]; rfl⟩

/-- The chunk of the five filters, with its second byte changed. -/
theorem decompressChunkWith_detects_mixedFilters :
    ∃ stored computed, decompressChunkWith storingCodecs ⟨[3], 2, by decide⟩ []
      [20, 5, 1, 1, 10, 0, 245, 255, 1, 2, 3, 0, 0, 0, 2, 4, 6, 9, 0, 103, 0, 28, 11, 34, 86, 41]
      mixedFilters 0 =
        .error (.fletcher32Mismatch stored computed) :=
  @decompressChunkWith_detects storingCodecs ⟨[3], 2, by decide⟩ (mixedFilters.take 4)
    ⟨filterFletcher32, []⟩ 0 rfl rfl [20] _ [] 120 5
    ([1, 0, 2, 0, 3, 0], [1, 2, 3, 0, 0, 0, 2, 4, 6, 9, 0]) (by decide +kernel) (by decide) []

end Hdf5Pure.Filter
