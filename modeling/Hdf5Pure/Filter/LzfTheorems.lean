import Hdf5Pure.Filter.Lzf
import Hdf5Pure.Utils.Lz77

/-!
# LZF streams

The compressor emits a token stream that expands to its input, and the decoder expands any such
stream. A stream is at most twice as long as what it expands to.
-/

namespace Hdf5Pure.Filter.Lzf

open Lz77 List

/-! ## Tokens -/

def encode : Token UInt8 → Bytes
  | .literals bytes => UInt8.ofNat (bytes.length - 1) :: bytes
  | .copy distance len => matchToken distance len

def Encodable : Token UInt8 → Prop
  | .literals bytes => 1 ≤ bytes.length ∧ bytes.length ≤ maxLiteralRun
  | .copy distance len => 1 ≤ distance ∧ distance ≤ maxMatchDistance ∧ 3 ≤ len ∧ len ≤ maxMatchLen

variable {token : Token UInt8} {distance ctrl : ℕ} {data : Bytes}

lemma length_encode_le (h : Encodable token) : (encode token).length ≤ 2 * token.size := by
  cases token with
  | literals bytes =>
    obtain ⟨hpos, -⟩ := h
    rw [encode, length_cons, Token.size]
    omega
  | copy distance len =>
    obtain ⟨-, -, hlen, -⟩ := h
    rw [encode, Token.size]
    unfold matchToken
    dsimp only
    split_ifs
    · show 2 ≤ 2 * len
      omega
    · show 3 ≤ 2 * len
      omega

variable {tokens : List (Token UInt8)} {out input : Bytes}

lemma length_flatMap_encode_le (h : ∀ t ∈ tokens, Encodable t) :
    (tokens.flatMap encode).length ≤ 2 * (tokens.map Token.size).sum := by
  induction tokens with
  | nil => exact Nat.zero_le _
  | cons token tokens ih =>
    have hhead := length_encode_le (h token mem_cons_self)
    have htail := ih fun t ht => h t (mem_cons_of_mem _ ht)
    rw [flatMap_cons, length_append, map_cons, sum_cons]
    omega

/-! ## Decoding a token -/

lemma pushFrom_eq {start : ℕ} (h : start < out.length) (len : ℕ) :
    pushFrom out start len = copyFrom out start len := by
  induction len generalizing out start with
  | zero => rfl
  | succ len ih =>
    rw [pushFrom, copyFrom_succ h, getD_eq_getElem _ _ h]
    exact ih (by rw [length_append]; exact Nat.succ_lt_succ h)

lemma copyMatch_eq (hpos : 0 < distance) (hle : distance ≤ out.length) (len : ℕ) :
    copyMatch out distance len = copyFrom out (out.length - distance) len := by
  unfold copyMatch
  split_ifs with h
  · rw [copyFrom_of_le (by omega)]
  · exact pushFrom_eq (by omega) len

lemma toNat_ofNat_of_lt {n : ℕ} (h : n < 256) : (UInt8.ofNat n).toNat = n := by
  exact Nat.mod_eq_of_lt h

lemma control_eq {a off : ℕ} (ha : a < 8) (hoff : off < 2 ^ 13) :
    (UInt8.ofNat (a <<< 5 ||| off >>> 8)).toNat = 32 * a + off / 256 := by
  have hdiv : off >>> 8 = off / 256 := Nat.shiftRight_eq_div_pow off 8
  have hor : a <<< 5 ||| off >>> 8 = 32 * a + off / 256 := by
    rw [← Nat.shiftLeft_add_eq_or_of_lt (show off >>> 8 < 2 ^ 5 by rw [hdiv]; omega), hdiv,
      Nat.shiftLeft_eq]
    ring
  rw [hor]
  exact toNat_ofNat_of_lt (by omega)

lemma distance_eq {a off : ℕ} (hoff : off < 2 ^ 13) :
    ((32 * a + off / 256) &&& 0x1f) <<< 8 ||| (UInt8.ofNat (off &&& 0xff)).toNat = off := by
  have hmask : off &&& 0xff = off % 256 := Nat.and_two_pow_sub_one_eq_mod off 8
  have hlow : (UInt8.ofNat (off &&& 0xff)).toNat = off % 256 := by
    rw [hmask]
    exact toNat_ofNat_of_lt (Nat.mod_lt _ (by omega))
  have hhigh : (32 * a + off / 256) &&& 0x1f = off / 256 := by
    rw [show (0x1f : ℕ) = 2 ^ 5 - 1 from rfl, Nat.and_two_pow_sub_one_eq_mod]
    omega
  rw [hlow, hhigh, ← Nat.shiftLeft_add_eq_or_of_lt (Nat.mod_lt _ (by omega)), Nat.shiftLeft_eq]
  omega

lemma decodeToken_literals {cap : ℕ} {bytes rest : Bytes} (h : Encodable (.literals bytes))
    (hcap : out.length + bytes.length ≤ cap) :
    decodeToken cap (UInt8.ofNat (bytes.length - 1)).toNat (bytes ++ rest) out =
      .ok (rest, out ++ bytes) := by
  obtain ⟨hpos, hmax⟩ := h
  rw [maxLiteralRun] at hmax
  rw [toNat_ofNat_of_lt (by omega), decodeToken, if_pos (by rw [maxLiteralRun]; omega)]
  rw [show bytes.length - 1 + 1 = bytes.length by omega, if_neg (by simp), if_neg (by omega),
    take_left, drop_left]

lemma matchLength_long {more : UInt8} (h : ctrl >>> 5 = 7) :
    matchLength ctrl (more :: input) = .ok (7 + more.toNat + 2, input) := by
  unfold matchLength
  rw [if_pos h, h]

lemma decodeToken_copy {cap len : ℕ} {rest : Bytes} {low : UInt8} (hctrl : 32 ≤ ctrl)
    (hlen : matchLength ctrl input = .ok (len, low :: rest))
    (hlow : (ctrl &&& 0x1f) <<< 8 ||| low.toNat = distance - 1) (hpos : 0 < distance)
    (hle : distance ≤ out.length) (hcap : out.length + len ≤ cap) :
    decodeToken cap ctrl input out = .ok (rest, copyFrom out (out.length - distance) len) := by
  rw [decodeToken, if_neg (by rw [maxLiteralRun]; omega), hlen]
  show (if _ then _ else _) = _
  rw [hlow, show distance - 1 + 1 = distance by omega, if_neg (by omega), if_neg (by omega),
    copyMatch_eq hpos hle]

lemma exists_control_copy {len : ℕ} (h : Encodable (.copy distance len)) (rest : Bytes) :
    ∃ ctrl input low, encode (.copy distance len) ++ rest = ctrl :: input ∧ 32 ≤ ctrl.toNat ∧
      matchLength ctrl.toNat input = .ok (len, low :: rest) ∧
      (ctrl.toNat &&& 0x1f) <<< 8 ||| low.toNat = distance - 1 := by
  obtain ⟨hpos, hmax, hlen, hlenMax⟩ := h
  rw [maxMatchDistance] at hmax
  rw [maxMatchLen] at hlenMax
  have hoff : distance - 1 < 2 ^ 13 := by omega
  have hshift : ∀ a, (32 * a + (distance - 1) / 256) >>> 5 = a := by
    intro a
    omega
  rw [encode]
  unfold matchToken
  dsimp only
  split_ifs with hshort
  · -- the length is in the control byte
    refine ⟨_, _, UInt8.ofNat ((distance - 1) &&& 0xff), rfl, ?_, ?_, ?_⟩
    · rw [control_eq (by omega) hoff]
      omega
    · rw [control_eq (by omega) hoff, matchLength.eq_def, if_neg (by rw [hshift]; omega), hshift,
        show len - 2 + 2 = len by omega]
      rfl
    · rw [control_eq (by omega) hoff, distance_eq hoff]
  · -- a byte of its own extends the length
    refine ⟨_, _, UInt8.ofNat ((distance - 1) &&& 0xff), rfl, ?_, ?_, ?_⟩
    · rw [control_eq (by omega) hoff]
      omega
    · rw [control_eq (by omega) hoff]
      refine (matchLength_long (hshift 7)).trans ?_
      rw [toNat_ofNat_of_lt (by omega), show 7 + (len - 2 - 7) + 2 = len by omega]
      rfl
    · rw [control_eq (by omega) hoff, distance_eq hoff]

/-! ## Decoding a stream -/

lemma encode_ne_nil (token : Token UInt8) : encode token ≠ [] := by
  cases token with
  | literals bytes => exact cons_ne_nil _ _
  | copy distance len =>
    rw [encode]
    unfold matchToken
    dsimp only
    split_ifs <;> exact cons_ne_nil _ _

/-- The decoder expands the encoding of any tokens, given room for the result. -/
lemma decodeTokens_flatMap {cap fuel : ℕ} (hexp : Expands out tokens data)
    (henc : ∀ t ∈ tokens, Encodable t) (hcap : data.length ≤ cap)
    (hfuel : (tokens.flatMap encode).length ≤ fuel) :
    decodeTokens cap fuel (tokens.flatMap encode) out = .ok data := by
  -- by induction on the tokens, each of which takes at least one byte
  induction hexp generalizing fuel with
  | nil out => cases fuel <;> rfl
  | @literals out data bytes tokens hrest ih =>
    have hlen := hrest.length_eq
    rw [length_append] at hlen
    rw [flatMap_cons, encode, cons_append] at hfuel ⊢
    cases fuel with
    | zero => exact absurd hfuel (by simp)
    | succ fuel =>
      rw [decodeTokens, decodeToken_literals (henc _ mem_cons_self) (by omega)]
      refine ih (fun t ht => henc t (mem_cons_of_mem _ ht)) hcap ?_
      rw [length_cons, length_append] at hfuel
      omega
  | @copy out data distance len tokens hpos hle hrest ih =>
    have hlen := hrest.length_eq
    rw [length_copyFrom (by omega)] at hlen
    obtain ⟨ctrl, input, low, heq, hctrl, hmatch, hlow⟩ :=
      exists_control_copy (henc _ mem_cons_self) (tokens.flatMap encode)
    have hpos' := length_pos_of_ne_nil (encode_ne_nil (.copy distance len))
    rw [flatMap_cons] at hfuel ⊢
    rw [length_append] at hfuel
    cases fuel with
    | zero => omega
    | succ fuel =>
      rw [heq, decodeTokens, decodeToken_copy hctrl hmatch hlow hpos hle (by omega)]
      exact ih (fun t ht => henc t (mem_cons_of_mem _ ht)) hcap (by omega)

/-! ## What the compressor emits -/

/-- A stream of encodable tokens that turn `out` into `data`. -/
def Emits (out stream data : Bytes) : Prop :=
  ∃ tokens, stream = tokens.flatMap encode ∧ (∀ t ∈ tokens, Encodable t) ∧ Expands out tokens data

lemma Emits.nil (out : Bytes) : Emits out [] out :=
  ⟨[], rfl, fun _ ht => absurd ht not_mem_nil, .nil out⟩

lemma Emits.append {mid stream stream' : Bytes} (h : Emits out stream mid)
    (h' : Emits mid stream' data) : Emits out (stream ++ stream') data := by
  obtain ⟨tokens, rfl, henc, hexp⟩ := h
  obtain ⟨tokens', rfl, henc', hexp'⟩ := h'
  refine ⟨tokens ++ tokens', by rw [flatMap_append], ?_, hexp.append hexp'⟩
  intro t ht
  exact (mem_append.mp ht).elim (henc t) (henc' t)

lemma Emits.singleton (henc : Encodable token) (hexp : Expands out [token] data) :
    Emits out (encode token) data := by
  refine ⟨[token], by rw [flatMap_cons, flatMap_nil, append_nil], ?_, hexp⟩
  intro t ht
  rwa [mem_singleton.mp ht]

lemma flushLiterals_emits {fuel : ℕ} {bytes : Bytes} (hfuel : bytes.length ≤ fuel) :
    Emits out (flushLiterals fuel bytes) (out ++ bytes) := by
  induction fuel generalizing out bytes with
  | zero =>
    obtain rfl := eq_nil_of_length_eq_zero (Nat.le_zero.mp hfuel)
    rw [append_nil]
    exact Emits.nil out
  | succ fuel ih =>
    rw [flushLiterals]
    by_cases hnil : bytes = []
    · rw [if_pos hnil, hnil, append_nil]
      exact Emits.nil out
    have hpos := length_pos_of_ne_nil hnil
    have hrun : (bytes.take (min bytes.length maxLiteralRun)).length =
        min bytes.length maxLiteralRun := by
      rw [length_take]
      omega
    have hmax : 1 ≤ min bytes.length maxLiteralRun ∧
        min bytes.length maxLiteralRun ≤ maxLiteralRun := by
      unfold maxLiteralRun
      omega
    have hhead : Emits out (encode (.literals (bytes.take (min bytes.length maxLiteralRun))))
        (out ++ bytes.take (min bytes.length maxLiteralRun)) :=
      .singleton (by rw [Encodable, hrun]; exact hmax) (.literals (.nil _))
    rw [encode, hrun] at hhead
    have htail : Emits (out ++ bytes.take (min bytes.length maxLiteralRun))
        (flushLiterals fuel (bytes.drop (min bytes.length maxLiteralRun))) (out ++ bytes) := by
      have := @ih (out ++ bytes.take (min bytes.length maxLiteralRun))
        (bytes.drop (min bytes.length maxLiteralRun)) (by rw [length_drop]; omega)
      rwa [append_assoc, take_append_drop] at this
    rw [if_neg hnil]
    exact hhead.append htail

/-- Literal runs extend a beginning of the input. -/
lemma literalsBetween_emits {start stop : ℕ} (h : start ≤ stop) :
    Emits (input.take start) (literalsBetween input start stop) (input.take stop) := by
  have hsplit : input.take start ++ (input.take stop).drop start = input.take stop := by
    conv_rhs => rw [← take_append_drop start (input.take stop), take_take, min_eq_left h]
  have hlen : ((input.take stop).drop start).length ≤ stop - start := by
    rw [length_drop, length_take]
    omega
  have hemits : Emits (input.take start) (literalsBetween input start stop) _ :=
    flushLiterals_emits hlen
  rwa [hsplit] at hemits

/-- The match grows as long as the bytes agree. -/
lemma extendMatch_spec {matchPos ip len : ℕ} (fuel : ℕ)
    (h : ∀ k < len, input.getD (matchPos + k) 0 = input.getD (ip + k) 0) :
    len ≤ extendMatch input matchPos ip fuel len ∧
      extendMatch input matchPos ip fuel len ≤ len + fuel ∧
      ∀ k < extendMatch input matchPos ip fuel len,
        input.getD (matchPos + k) 0 = input.getD (ip + k) 0 := by
  induction fuel generalizing len with
  | zero => exact ⟨le_rfl, le_rfl, h⟩
  | succ fuel ih =>
    rw [extendMatch]
    split_ifs with heq
    · have hnext : ∀ k < len + 1, input.getD (matchPos + k) 0 = input.getD (ip + k) 0 := by
        intro k hk
        rcases Nat.lt_succ_iff_lt_or_eq.mp hk with hk | rfl
        · exact h k hk
        · exact heq
      obtain ⟨hle, hmax, hall⟩ := ih hnext
      exact ⟨by omega, by omega, hall⟩
    · exact ⟨le_rfl, by omega, h⟩

lemma getD_eq_of_take_eq {a b n : ℕ} (h : (input.drop a).take n = (input.drop b).take n) :
    ∀ k < n, input.getD (a + k) 0 = input.getD (b + k) 0 := by
  intro k hk
  have := congrArg (fun l => l[k]?) h
  simp only [getElem?_take, if_pos hk, getElem?_drop] at this
  rw [getD_eq_getElem?_getD, getD_eq_getElem?_getD, this]

/-- A match that is found can be encoded and repeats the bytes at `ip`. -/
lemma findMatch_spec {candidate ip len : ℕ} (hip : ip + 2 < input.length)
    (h : findMatch input candidate ip = some (distance, len)) :
    Encodable (.copy distance len) ∧ ip + len ≤ input.length ∧ distance ≤ ip ∧
      copyFrom (input.take ip) (ip - distance) len = input.take (ip + len) := by
  unfold findMatch at h
  dsimp only at h
  split_ifs at h with hzero hcond
  obtain ⟨hpos, hmax, hthree⟩ := hcond
  cases h
  obtain ⟨hle, hbound, hagree⟩ :=
    extendMatch_spec (min (input.length - ip) maxMatchLen - 3) (getD_eq_of_take_eq hthree)
  have hfit : extendMatch input (candidate - 1) ip (min (input.length - ip) maxMatchLen - 3) 3 ≤
      min (input.length - ip) maxMatchLen := by
    refine hbound.trans ?_
    unfold maxMatchLen
    omega
  refine ⟨⟨hpos, hmax, hle, hfit.trans (min_le_right _ _)⟩, by omega, Nat.sub_le _ _, ?_⟩
  rw [show ip - (ip - (candidate - 1)) = candidate - 1 by omega]
  apply copyFrom_take (by omega) (by omega)
  intro k hk
  have hk' := hagree k hk
  rw [getD_eq_getElem _ _ (by omega), getD_eq_getElem _ _ (by omega)] at hk'
  rw [getElem?_eq_getElem (by omega), getElem?_eq_getElem (by omega), hk']

/-- From any position on, what has been emitted and what is still to come expand to the input. -/
lemma encodeFrom_emits {fuel ip literalStart : ℕ} {table : ℕ → ℕ}
    (hout : Emits [] out (input.take literalStart)) (hstart : literalStart ≤ ip)
    (hip : ip ≤ input.length) :
    Emits [] (encodeFrom input fuel ip literalStart table out) input := by
  have hfinish : Emits [] (out ++ literalsBetween input literalStart input.length) input := by
    have := hout.append (literalsBetween_emits (hstart.trans hip))
    rwa [take_length] at this
  induction fuel generalizing ip literalStart table out with
  | zero => exact hfinish
  | succ fuel ih =>
    rw [encodeFrom]
    by_cases hmore : ip + 2 < input.length
    · rw [if_pos hmore]
      dsimp only
      cases hfind : findMatch input
          (table (hash (input.getD ip 0) (input.getD (ip + 1) 0) (input.getD (ip + 2) 0))) ip with
      | none => exact ih hout (by omega) (by omega) hfinish
      | some found =>
        obtain ⟨distance, len⟩ := found
        obtain ⟨henc, hle, hdist, hcopy⟩ := findMatch_spec hmore hfind
        have hlen : (input.take ip).length = ip := by
          rw [length_take]
          omega
        -- the match continues what the literals before it expand to
        have hmatch : Emits (input.take ip) (matchToken distance len) (input.take (ip + len)) := by
          refine .singleton henc (.copy henc.1 (by rw [hlen]; exact hdist) ?_)
          rw [hlen, hcopy]
          exact .nil _
        have hout' := (hout.append (literalsBetween_emits hstart)).append hmatch
        refine ih hout' le_rfl hle ?_
        have := hout'.append (literalsBetween_emits hle)
        rwa [take_length] at this
    · rw [if_neg hmore]
      exact hfinish

/-! ## The round trip -/

lemma compressInto_emits (input : Bytes) : Emits [] (compressInto input) input :=
  encodeFrom_emits (Emits.nil []) le_rfl (Nat.zero_le _)

lemma length_compressInto_le (input : Bytes) : (compressInto input).length ≤ 2 * input.length := by
  obtain ⟨tokens, heq, henc, hexp⟩ := compressInto_emits input
  have hlen := hexp.length_eq
  rw [length_nil, Nat.zero_add] at hlen
  rw [heq, hlen]
  exact length_flatMap_encode_le henc

lemma decompressInto_compressInto {maxOutput : Option ℕ}
    (h : input.length ≤ maxOutput.getD usizeMax) :
    decompressInto (compressInto input) maxOutput = .ok input := by
  obtain ⟨tokens, heq, henc, hexp⟩ := compressInto_emits input
  rw [decompressInto, heq]
  exact decodeTokens_flatMap hexp henc h le_rfl

/-! ## The tokens of a stream -/

/-- The control byte tells the tokens apart, and each token gives its own length. -/
lemma encode_append_inj {token' : Token UInt8} {rest rest' : Bytes} (h : Encodable token)
    (h' : Encodable token') (heq : encode token ++ rest = encode token' ++ rest') :
    token = token' ∧ rest = rest' := by
  have hliteral : ∀ {bytes : Bytes}, Encodable (.literals bytes) →
      (UInt8.ofNat (bytes.length - 1)).toNat = bytes.length - 1 ∧ 1 ≤ bytes.length ∧
        bytes.length ≤ 32 :=
    fun hb => ⟨toNat_ofNat_of_lt (by have := hb.2; unfold maxLiteralRun at this; omega), hb⟩
  cases token with
  | literals bytes =>
    obtain ⟨hctrl, hpos, hmax⟩ := hliteral h
    cases token' with
    | literals bytes' =>
      obtain ⟨hctrl', hpos', -⟩ := hliteral h'
      obtain ⟨hbyte, htail⟩ := cons.inj heq
      rw [hbyte, hctrl'] at hctrl
      obtain ⟨rfl, rfl⟩ := append_inj htail (by omega)
      exact ⟨rfl, rfl⟩
    | copy distance len =>
      obtain ⟨ctrl, input, low, hcopy, hlarge, -⟩ := exists_control_copy h' rest'
      obtain ⟨rfl, -⟩ := cons.inj (heq.trans hcopy)
      omega
  | copy distance len =>
    obtain ⟨ctrl, input, low, hcopy, hlarge, hlen, hlow⟩ := exists_control_copy h rest
    rw [hcopy] at heq
    cases token' with
    | literals bytes =>
      obtain ⟨hctrl, hpos, hmax⟩ := hliteral h'
      obtain ⟨rfl, -⟩ := cons.inj heq
      omega
    | copy distance' len' =>
      -- both lengths are read from the same bytes
      obtain ⟨ctrl', input', low', hcopy', -, hlen', hlow'⟩ := exists_control_copy h' rest'
      obtain ⟨rfl, rfl⟩ := cons.inj (heq.trans hcopy')
      obtain ⟨rfl, htail⟩ := Prod.mk.inj (Except.ok.inj (hlen.symm.trans hlen'))
      obtain ⟨rfl, rfl⟩ := cons.inj htail
      have hdistance := h.1
      have hdistance' := h'.1
      rw [show distance = distance' by omega]
      exact ⟨rfl, rfl⟩

/-- A stream is the encoding of one list of tokens only. -/
lemma flatMap_encode_inj {tokens' : List (Token UInt8)} (h : ∀ t ∈ tokens, Encodable t)
    (h' : ∀ t ∈ tokens', Encodable t) (heq : tokens.flatMap encode = tokens'.flatMap encode) :
    tokens = tokens' := by
  induction tokens generalizing tokens' with
  | nil =>
    cases tokens' with
    | nil => rfl
    | cons token' tokens' => exact absurd (append_eq_nil_iff.mp heq.symm).1 (encode_ne_nil _)
  | cons token tokens ih =>
    cases tokens' with
    | nil => exact absurd (append_eq_nil_iff.mp heq).1 (encode_ne_nil _)
    | cons token' tokens' =>
      obtain ⟨rfl, hrest⟩ :=
        encode_append_inj (h _ mem_cons_self) (h' _ mem_cons_self) heq
      rw [ih (fun t ht => h t (mem_cons_of_mem _ ht))
        (fun t ht => h' t (mem_cons_of_mem _ ht)) hrest]

/-- Decoding undoes encoding, within the exact size and without a limit, for every slice that
`usize` can measure. The stream is at most twice as long, and it is the encoding of exactly one list
of tokens within the format's limits, which repeats only bytes that are already there. -/
theorem lzf_decode_undoes_encode (input : Bytes) (hslice : input.length ≤ usizeMax) :
    decompressInto (compressInto input) (some input.length) = .ok input ∧
      decompressInto (compressInto input) none = .ok input ∧
      (compressInto input).length ≤ 2 * input.length ∧
      ∃ tokens, (∀ t ∈ tokens, Encodable t) ∧ compressInto input = tokens.flatMap encode ∧
        Expands [] tokens input ∧
        ∀ tokens', (∀ t ∈ tokens', Encodable t) → compressInto input = tokens'.flatMap encode →
          tokens' = tokens := by
  obtain ⟨tokens, heq, henc, hexp⟩ := compressInto_emits input
  refine ⟨decompressInto_compressInto le_rfl, decompressInto_compressInto hslice,
    length_compressInto_le input, tokens, henc, heq, hexp, ?_⟩
  intro tokens' henc' heq'
  exact flatMap_encode_inj henc' henc (heq'.symm.trans heq)

/-- A repeated byte becomes one literal and a match that overlaps itself. -/
theorem lzf_decode_undoes_encode_repeated :
    compressInto [7, 7, 7, 7, 7] = encode (.literals [7]) ++ encode (.copy 1 4) ∧
      decompressInto (compressInto [7, 7, 7, 7, 7]) (some 5) = .ok [7, 7, 7, 7, 7] :=
  ⟨by decide +kernel, (lzf_decode_undoes_encode [7, 7, 7, 7, 7] (by decide)).1⟩

end Hdf5Pure.Filter.Lzf
