import Hdf5Pure.Filter.Error

/-!
# The Fletcher32 filter

`fletcher32_compute` and `fletcher32_verify` of `crates/hdf5-pure-filter/src/pipeline/mod.rs`. The
checksum is stored after the bytes it covers, least significant byte first.
-/

namespace Hdf5Pure.Filter

/-- The two running sums of a checksum. -/
structure FletcherSums where
  sum1 : UInt32
  sum2 : UInt32
deriving DecidableEq, Repr

def wrappingU32Add (x y : UInt32) : Id UInt32 := x + y

namespace FletcherSums

variable {m : Type → Type} [Monad m] (plus : UInt32 → UInt32 → m UInt32)

def add (sums : FletcherSums) (val : UInt32) : m FletcherSums := do
  let sum1 ← plus sums.sum1 val
  let sum2 ← plus sums.sum2 sum1
  return ⟨sum1, sum2⟩

def foldCarry (sum : UInt32) : m UInt32 :=
  plus (sum &&& (0xffff : UInt32)) (sum >>> (16 : UInt32))

def fold (sums : FletcherSums) : m FletcherSums := do
  let sum1 ← foldCarry plus sums.sum1
  let sum2 ← foldCarry plus sums.sum2
  return ⟨sum1, sum2⟩

/-- Adds up to `tlen` big-endian words and returns the bytes after them. -/
def addWords : ℕ → FletcherSums → Bytes → m (FletcherSums × Bytes)
  | tlen + 1, sums, hi :: lo :: data => do
    let sums ← sums.add plus (hi.toUInt32 <<< 8 ||| lo.toUInt32)
    addWords tlen sums data
  | _, sums, data => return (sums, data)

/-- Adds `words` words in blocks of at most 360, folding after each. The first argument bounds the
number of blocks. -/
def addBlocks : ℕ → ℕ → FletcherSums → Bytes → m (FletcherSums × Bytes)
  | 0, _, sums, data => return (sums, data)
  | fuel + 1, words, sums, data =>
    if words = 0 then return (sums, data)
    else do
      let tlen := min words 360
      let (sums, data) ← sums.addWords plus tlen data
      let sums ← sums.fold plus
      addBlocks fuel (words - tlen) sums data

end FletcherSums

def fletcherSums {m : Type → Type} [Monad m] (plus : UInt32 → UInt32 → m UInt32)
    (data : Bytes) : m FletcherSums := do
  let words := data.length / 2
  let (sums, rest) ← FletcherSums.addBlocks plus words words ⟨0, 0⟩ data
  let sums ←
    match rest with
    | [] => pure sums
    | last :: _ => do
      let sums ← sums.add plus (last.toUInt32 <<< 8)
      sums.fold plus
  sums.fold plus

def fletcher32Compute (data : Bytes) : UInt32 :=
  let sums := Id.run (fletcherSums wrappingU32Add data)
  (sums.sum2 <<< (16 : UInt32)) ||| sums.sum1

def checksumBytes (data : Bytes) : Bytes := leBytes 4 (fletcher32Compute data).toNat

def fletcher32Verify (data : Bytes) : Except FilterError Bytes :=
  if data.length < 4 then .error (.filterError "fletcher32: data too short for checksum")
  else
    let payload := data.take (data.length - 4)
    let stored := leNat (data.drop (data.length - 4))
    let computed := (fletcher32Compute payload).toNat
    if stored ≠ computed then .error (.fletcher32Mismatch stored computed) else .ok payload

@[simp] lemma length_checksumBytes (data : Bytes) : (checksumBytes data).length = 4 :=
  length_leBytes _ _

lemma fletcher32Verify_append (data : Bytes) :
    fletcher32Verify (data ++ checksumBytes data) = .ok data := by
  unfold fletcher32Verify
  rw [List.length_append, length_checksumBytes, if_neg (by omega), Nat.add_sub_cancel,
    List.take_left', List.drop_left', checksumBytes,
    leNat_leBytes_of_lt (fletcher32Compute data).toNat_lt]
  · simp
  · rfl
  · rfl

end Hdf5Pure.Filter
