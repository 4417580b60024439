import Hdf5Pure.Filter.Error

/-!
# The LZF filter

`crates/hdf5-pure-filter/src/lzf.rs`. A control byte below 32 introduces a literal run, another one
a back reference. The compressor matches greedily with one probe of a hash table. Its table is a
function from slots, zero where nothing was stored.
-/

namespace Hdf5Pure.Filter.Lzf

def maxLiteralRun : ℕ := 32

def maxMatchLen : ℕ := 264

def maxMatchDistance : ℕ := 2 ^ 13

def hashTableSlots : ℕ := 2 ^ 13

def hashTableBits : ℕ := 13

/-! ## Decoding -/

def matchLength (ctrl : ℕ) (input : Bytes) : Except FilterError (ℕ × Bytes) :=
  let len := ctrl >>> 5
  if len = 7 then
    match input with
    | [] => .error (.invalidLzfStream "truncated match length")
    | more :: input => .ok (len + more.toNat + 2, input)
  else .ok (len + 2, input)

/-- Appends `len` bytes from `start`, pushing each one that is read. -/
def pushFrom (out : Bytes) (start : ℕ) : ℕ → Bytes
  | 0 => out
  | len + 1 => pushFrom (out ++ [out.getD start 0]) (start + 1) len

/-- Appends `len` bytes from `distance` before the end of the output. -/
def copyMatch (out : Bytes) (distance len : ℕ) : Bytes :=
  let start := out.length - distance
  if distance ≥ len then out ++ (out.drop start).take len
  -- an overlapping match has to be pushed byte by byte
  else pushFrom out start len

def decodeToken (cap : ℕ) (ctrl : ℕ) (input out : Bytes) : Except FilterError (Bytes × Bytes) :=
  if ctrl < maxLiteralRun then
    let len := ctrl + 1
    if input.length < len then .error (.invalidLzfStream "truncated literal run")
    else if out.length + len > cap then .error (.lzfSizeExceeded cap (out.length + len))
    else .ok (input.drop len, out ++ input.take len)
  else do
    let (len, input) ← matchLength ctrl input
    match input with
    | [] => .error (.invalidLzfStream "truncated match offset")
    | low :: input =>
      let distance := ((ctrl &&& 0x1f) <<< 8 ||| low.toNat) + 1
      if distance > out.length then
        .error (.invalidLzfStream "match reaches before start of output")
      else if out.length + len > cap then .error (.lzfSizeExceeded cap (out.length + len))
      else .ok (input, copyMatch out distance len)

/-- Decodes until the input ends. The first argument bounds the number of tokens. -/
def decodeTokens (cap : ℕ) : ℕ → Bytes → Bytes → Except FilterError Bytes
  | _, [], out => .ok out
  | 0, _ :: _, _ => .error (.pipeline (.internal "more tokens than bytes"))
  | fuel + 1, ctrl :: input, out => do
    let (input, out) ← decodeToken cap ctrl.toNat input out
    decodeTokens cap fuel input out

/-- The bytes of an LZF stream, of which there are at most `maxOutput`. -/
def decompressInto (input : Bytes) (maxOutput : Option ℕ) : Except FilterError Bytes :=
  decodeTokens (maxOutput.getD usizeMax) input.length input []

/-! ## Encoding -/

def hash (a b c : UInt8) : ℕ :=
  let v := a.toNat <<< 16 ||| b.toNat <<< 8 ||| c.toNat
  (v * 0x9E3779B1 % 2 ^ 64) >>> (32 - hashTableBits) &&& (hashTableSlots - 1)

/-- The bytes as literal runs. The first argument bounds the number of runs. -/
def flushLiterals : ℕ → Bytes → Bytes
  | 0, _ => []
  | fuel + 1, bytes =>
    if bytes = [] then []
    else
      let n := min bytes.length maxLiteralRun
      UInt8.ofNat (n - 1) :: bytes.take n ++ flushLiterals fuel (bytes.drop n)

/-- The length of a match that has `len` bytes already, at most `fuel` more. -/
def extendMatch (input : Bytes) (matchPos ip : ℕ) : ℕ → ℕ → ℕ
  | 0, len => len
  | fuel + 1, len =>
    if input.getD (matchPos + len) 0 = input.getD (ip + len) 0 then
      extendMatch input matchPos ip fuel (len + 1)
    else len

def matchToken (distance len : ℕ) : Bytes :=
  let off := distance - 1
  let encodedLen := len - 2
  if encodedLen < 7 then [UInt8.ofNat (encodedLen <<< 5 ||| off >>> 8), UInt8.ofNat (off &&& 0xff)]
  else [UInt8.ofNat (7 <<< 5 ||| off >>> 8), UInt8.ofNat (encodedLen - 7), UInt8.ofNat (off &&& 0xff)]

/-- The match at `ip` with the position stored in its slot: a distance and a length. -/
def findMatch (input : Bytes) (candidate ip : ℕ) : Option (ℕ × ℕ) :=
  if candidate = 0 then none
  else
    let matchPos := candidate - 1
    let distance := ip - matchPos
    if 1 ≤ distance ∧ distance ≤ maxMatchDistance ∧
        (input.drop matchPos).take 3 = (input.drop ip).take 3 then
      let maxLen := min (input.length - ip) maxMatchLen
      some (distance, extendMatch input matchPos ip (maxLen - 3) 3)
    else none

def literalsBetween (input : Bytes) (start stop : ℕ) : Bytes :=
  flushLiterals (stop - start) ((input.take stop).drop start)

/-- Encodes from `ip` on. The first argument bounds the number of positions that are left. -/
def encodeFrom (input : Bytes) : ℕ → ℕ → ℕ → (ℕ → ℕ) → Bytes → Bytes
  | 0, _, literalStart, _, out => out ++ literalsBetween input literalStart input.length
  | fuel + 1, ip, literalStart, table, out =>
    if ip + 2 < input.length then
      let slot := hash (input.getD ip 0) (input.getD (ip + 1) 0) (input.getD (ip + 2) 0)
      let table' := Function.update table slot (ip + 1)
      match findMatch input (table slot) ip with
      | some (distance, len) =>
        encodeFrom input fuel (ip + len) (ip + len) table'
          (out ++ literalsBetween input literalStart ip ++ matchToken distance len)
      | none => encodeFrom input fuel (ip + 1) literalStart table' out
    else out ++ literalsBetween input literalStart input.length

def compressInto (input : Bytes) : Bytes :=
  encodeFrom input input.length 0 0 (fun _ => 0) []

end Hdf5Pure.Filter.Lzf
