import Hdf5Pure.Filter.Deflate

/-!
# Decoding a Deflate stream

What is assumed of zlib is that a stream has a bounded length and that inflating it gives back the
bytes: in one call with room to spare, and over any calls that are each given the rest of the
stream.
-/

namespace Hdf5Pure.Filter

open List

/-! ## The codec -/

/-- Inflating the stream gives the data. `Seen d i o` says that a decoder read `i` bytes of the stream
and wrote `o` bytes of the data. -/
structure Zlib.Inflates (z : Zlib) (stream data : Bytes) (Seen : z.Decoder → ℕ → ℕ → Prop) :
    Prop where
  new : Seen z.new 0 0
  total : ∀ {d i o}, Seen d i o →
    z.totalIn d = i ∧ z.totalOut d = o ∧ i ≤ stream.length ∧ o ≤ data.length
  /-- A call writes the next bytes. Unless the stream ends, it fills the window or makes progress. -/
  call : ∀ {d i o}, Seen d i o → ∀ room, ∃ status i',
    let r := z.decompress d (stream.drop i) room .none
    r.status = .ok status ∧ r.out = (data.drop o).take r.out.length ∧
      Seen r.decoder i' (o + r.out.length) ∧ i ≤ i' ∧
      (status = .streamEnd → o + r.out.length = data.length) ∧
      (status ≠ .streamEnd → r.out.length = room ∨ i < i' ∨ 0 < r.out.length)
  /-- One call with more room than the data takes is enough. -/
  finish : ∀ room, data.length < room →
    let r := z.decompress z.new stream room .finish
    r.status = .ok .streamEnd ∧ r.out = data ∧ z.totalOut r.decoder = data.length

/-- A codec whose decoder undoes its encoder, with a bound on the length of a stream. -/
structure Zlib.Lawful (z : Zlib) : Prop where
  inflates : ∀ level ≤ 9, ∀ data : Bytes,
    ∃ Seen : z.Decoder → ℕ → ℕ → Prop, z.Inflates (z.deflate level data) data Seen
  length_le : ∀ level ≤ 9, ∀ data : Bytes,
    (z.deflate level data).length ≤ data.length + data.length / 16 + 64

/-! ## Windows -/

variable {start : ℕ}

namespace OutputWindow

@[simp] lemma stop_resize (window : OutputWindow) (stop : ℕ) : (window.resize stop).stop = stop :=
  rfl

variable {window : OutputWindow}

lemma slice_writeAt {out : Bytes} (h : start + out.length ≤ window.stop) :
    (window.writeAt start out).slice =
      window.slice.take start ++ out ++ window.slice.drop (start + out.length) := by
  unfold writeAt write
  rw [dif_pos h, slice]
  apply take_left'
  simp only [length_append, length_take, length_drop, length_slice]
  omega

@[simp] lemma stop_writeAt (window : OutputWindow) (start : ℕ) (out : Bytes) :
    (window.writeAt start out).stop = window.stop := by
  unfold writeAt
  split_ifs <;> rfl

/-- Writing the next bytes extends what the window shows of the data. -/
lemma take_writeAt {data out : Bytes} (h : start + out.length ≤ window.stop)
    (hslice : window.slice.take start = data.take start)
    (hout : out = (data.drop start).take out.length) :
    (window.writeAt start out).slice.take (start + out.length) = data.take (start + out.length) := by
  have hlen : (window.slice.take start).length = start := by
    rw [length_take, length_slice]
    omega
  rw [slice_writeAt h, take_left' (by rw [length_append, hlen]), hslice, take_add,
    ← hout]

lemma take_resize {n stop : ℕ} (hn : n ≤ window.stop) (hle : n ≤ stop) :
    (window.resize stop).slice.take n = window.slice.take n := by
  have := window.stop_le
  rw [slice, slice, take_take, take_take, min_eq_left hn,
    show min n (window.resize stop).stop = n from min_eq_left hle]
  exact take_append_of_le_length (hn.trans this)

end OutputWindow

/-! ## The two ways of decoding -/

section Decode

variable {z : Zlib} {stream data : Bytes} {Seen : z.Decoder → ℕ → ℕ → Prop}

variable {limit : ℕ}

lemma decompressComplete_spec (hz : z.Inflates stream data Seen) (hlimit : data.length ≤ limit)
    (window : OutputWindow) :
    ∃ window', decompressComplete z stream (limit + 1) window = .ok (data.length, window') ∧
      data.length ≤ window'.stop ∧ window'.slice.take data.length = data := by
  obtain ⟨hstatus, hout, htotal⟩ := hz.finish (limit + 1) (by omega)
  refine ⟨(window.resize (limit + 1)).writeAt 0 data, ?_, ?_, ?_⟩
  · unfold decompressComplete
    dsimp only
    rw [OutputWindow.stop_resize, htotal, if_neg (by omega), hstatus, hout]
    rfl
  · rw [OutputWindow.stop_writeAt, OutputWindow.stop_resize]
    omega
  · have hroom : 0 + data.length ≤ (window.resize (limit + 1)).stop := by
      rw [OutputWindow.stop_resize]
      omega
    have hnext : data = (data.drop 0).take data.length := by
      rw [drop_zero, take_length]
    have hstart : (window.resize (limit + 1)).slice.take 0 = data.take 0 := rfl
    have htake := OutputWindow.take_writeAt hroom hstart hnext
    rwa [Nat.zero_add, take_length] at htake

lemma lt_grownStop {stop : ℕ} (h : stop < saturatingAdd limit 1) (hmax : stop < usizeMax) :
    stop < grownStop (some (saturatingAdd limit 1)) stop := by
  unfold grownStop deflateGrowthFloor
  dsimp only
  unfold saturatingAdd at h ⊢
  omega

/-- Calls are left for the bytes that are still to be read and written. -/
lemma decompressLoop_spec (hz : z.Inflates stream data Seen) (hlimit : data.length ≤ limit)
    (hmax : data.length < usizeMax) {fuel i o : ℕ} {d : z.Decoder} {window : OutputWindow}
    (hseen : Seen d i o) (ho : o ≤ window.stop) (hslice : window.slice.take o = data.take o)
    (hfuel : 2 * ((stream.length - i) + (data.length - o)) + (if o = window.stop then 1 else 0) <
      fuel) :
    ∃ window', decompressLoop z stream (some limit) fuel d o window = .ok (data.length, window') ∧
      data.length ≤ window'.stop ∧ window'.slice.take data.length = data := by
  induction fuel generalizing i o d window with
  | zero => omega
  | succ fuel ih =>
    obtain ⟨htotalIn, -, hi, -⟩ := hz.total hseen
    obtain ⟨status, i', hstatus, hout, hseen', hle, hend, hmore⟩ := hz.call hseen (window.stop - o)
    obtain ⟨htotalIn', htotalOut', hi', ho'⟩ := hz.total hseen'
    have hroom := z.length_out_le d (stream.drop i) (window.stop - o) .none
    rw [decompressLoop, if_neg (by omega)]
    dsimp only
    rw [htotalIn]
    generalize z.decompress d (stream.drop i) (window.stop - o) .none = call at *
    have htake := OutputWindow.take_writeAt (by omega) hslice hout
    rw [hstatus]
    dsimp only
    rw [htotalOut', htotalIn', OutputWindow.stop_writeAt]
    by_cases hdone : status = .streamEnd
    · have hall := hend hdone
      rw [if_pos hdone, hall]
      rw [hall, take_length] at htake
      refine ⟨window.writeAt o call.out, ?_, ?_, htake⟩
      · rw [if_neg]
        simpa using hlimit
      · rw [OutputWindow.stop_writeAt]
        omega
    · rw [if_neg hdone]
      have hprogress := hmore hdone
      by_cases hfull : o + call.out.length = window.stop
      · -- the window is full and grows
        have hceiling : o + call.out.length < saturatingAdd limit 1 :=
          lt_min (Nat.lt_succ_of_le (ho'.trans hlimit)) (ho'.trans_lt hmax)
        have hlt := lt_grownStop (hfull ▸ hceiling) (hfull ▸ ho'.trans_lt hmax)
        rw [if_pos hfull, if_neg (by simpa using hceiling), Option.map_some]
        refine ih hseen' ?_ ?_ ?_
        · rw [OutputWindow.stop_resize]
          omega
        · rw [OutputWindow.take_resize (by rw [OutputWindow.stop_writeAt]; omega) (by omega), htake]
        · rw [OutputWindow.stop_resize, if_neg (by omega)]
          split_ifs at hfuel <;> omega
      · -- the call read or wrote something
        rw [if_neg hfull, if_neg (by omega)]
        refine ih hseen' (by rw [OutputWindow.stop_writeAt]; omega) htake ?_
        rw [OutputWindow.stop_writeAt, if_neg hfull]
        split_ifs at hfuel <;> omega

/-- Decoding a stream of the data returns the data, whatever the window held. -/
lemma deflateDecompressInto_spec (hz : z.Inflates stream data Seen) (hlimit : data.length ≤ limit)
    (hmax : data.length < usizeMax) (window : OutputWindow) :
    ∃ window', deflateDecompressInto z stream (some limit) window = .ok (data.length, window') ∧
      data.length ≤ window'.stop ∧ window'.slice.take data.length = data := by
  have hstreaming : ∀ reservation, ∃ window',
      deflateDecompressStreaming z stream (some limit) reservation window =
        .ok (data.length, window') ∧
      data.length ≤ window'.stop ∧ window'.slice.take data.length = data := by
    intro reservation
    refine decompressLoop_spec hz hlimit hmax hz.new (Nat.zero_le _) rfl ?_
    rw [Option.getD_some]
    split_ifs <;> omega
  unfold deflateDecompressInto DeflateMode.parse
  dsimp only
  split_ifs
  · exact hstreaming _
  · exact decompressComplete_spec hz hlimit window
  · exact hstreaming _

end Decode

/-- Inflating undoes deflating, at a limit that the data does not exceed. -/
lemma deflateDecompress_deflate {z : Zlib} (hz : z.Lawful) {level limit : ℕ} (hlevel : level ≤ 9)
    {data : Bytes} (hlimit : data.length ≤ limit) (hmax : data.length < usizeMax)
    {current : FilterBuffer} (hcurrent : current.asSlice = deflateCompress z data level)
    (spare : Bytes) :
    ∃ view spare', deflateDecompress z current spare (some limit) = .ok (view, spare') ∧
      view.asSlice = data := by
  obtain ⟨Seen, hinf⟩ := hz.inflates level hlevel data
  obtain ⟨window, heq, hstop, hslice⟩ :=
    deflateDecompressInto_spec hinf hlimit hmax (OutputWindow.new spare)
  obtain ⟨view, hview, hasSlice⟩ := FilterBuffer.asSlice_finish hstop
  refine ⟨view, current.recycle spare, ?_, by rw [hasSlice, hslice]⟩
  rw [deflateDecompress, FilterBuffer.overwrite, hcurrent, deflateCompress, heq]
  dsimp only [bind, Except.bind]
  rw [hview]

end Hdf5Pure.Filter
