import Hdf5Pure.Core.Error

/-!
# Metadata checksums

`crates/hdf5-pure-format/src/checksum.rs`: the lookup3 hash of a block of bytes and the check of the
hash that a metadata block stores in its last four bytes. The model is that of a build with the
`checksum` feature, which is a default one.
-/

namespace Hdf5Pure.Format

structure Words where
  a : UInt32
  b : UInt32
  c : UInt32
deriving DecidableEq, Repr

def rot (x k : UInt32) : UInt32 := x <<< k ||| x >>> (32 - k)

def mix (w : Words) : Words :=
  let ⟨a, b, c⟩ := w
  let a := (a - c) ^^^ rot c 4
  let c := c + b
  let b := (b - a) ^^^ rot a 6
  let a := a + c
  let c := (c - b) ^^^ rot b 8
  let b := b + a
  let a := (a - c) ^^^ rot c 16
  let c := c + b
  let b := (b - a) ^^^ rot a 19
  let a := a + c
  let c := (c - b) ^^^ rot b 4
  let b := b + a
  ⟨a, b, c⟩

def finalMix (w : Words) : Words :=
  let ⟨a, b, c⟩ := w
  let c := (c ^^^ b) - rot b 14
  let a := (a ^^^ c) - rot c 11
  let b := (b ^^^ a) - rot a 25
  let c := (c ^^^ b) - rot b 16
  let a := (a ^^^ c) - rot c 4
  let b := (b ^^^ a) - rot a 14
  let c := (c ^^^ b) - rot b 24
  ⟨a, b, c⟩

def byteAt (zero : Bool) (data : Bytes) (offset zeroAt : ℕ) : UInt8 :=
  if zero ∧ zeroAt ≤ offset ∧ offset - zeroAt < 4 then 0 else data.getD offset 0

def readU32Le (zero : Bool) (data : Bytes) (offset zeroAt : ℕ) : UInt32 :=
  .ofNat (leNat [byteAt zero data offset zeroAt, byteAt zero data (offset + 1) zeroAt,
    byteAt zero data (offset + 2) zeroAt, byteAt zero data (offset + 3) zeroAt])

/-- Mixes the blocks that more bytes follow and returns the offset of the tail. -/
def zeroedBlocks (zero : Bool) (data : Bytes) (zeroAt : ℕ) : ℕ → ℕ → Words → ℕ × Words
  | 0, offset, w => (offset, w)
  | fuel + 1, offset, w =>
    if 12 < data.length - offset then
      zeroedBlocks zero data zeroAt fuel (offset + 12)
        (mix ⟨w.a + readU32Le zero data offset zeroAt, w.b + readU32Le zero data (offset + 4) zeroAt,
          w.c + readU32Le zero data (offset + 8) zeroAt⟩)
    else (offset, w)

def tailWord (zero : Bool) (data : Bytes) (zeroAt offset index : ℕ) : UInt32 :=
  .ofNat (leNat ((List.range (min 4 (data.length - (offset + index * 4)))).map fun i =>
    byteAt zero data (offset + index * 4 + i) zeroAt))

def hashlittleZeroed (zero : Bool) (data : Bytes) (initval : UInt32) (zeroAt : ℕ) : UInt32 :=
  let seed : UInt32 := 0xdeadbeef + .ofNat data.length + initval
  let (offset, w) := zeroedBlocks zero data zeroAt (data.length + 1) 0 ⟨seed, seed, seed⟩
  if (data.drop offset).isEmpty then w.c
  else
    (finalMix ⟨w.a + tailWord zero data zeroAt offset 0, w.b + tailWord zero data zeroAt offset 1,
      w.c + tailWord zero data zeroAt offset 2⟩).c

def hashlittle (data : Bytes) (initval : UInt32) : UInt32 :=
  hashlittleZeroed false data initval 0

def jenkinsLookup3 (data : Bytes) : UInt32 := hashlittle data 0

/-- Checks the hash in the last four bytes of a block against the bytes before it. -/
def verifyTrailing (block : Bytes) : Except FormatError Unit :=
  if block.length < 4 then .error (.unexpectedEof 4 block.length)
  else
    let body := block.take (block.length - 4)
    let stored := leNat (block.drop (block.length - 4))
    let computed := (jenkinsLookup3 body).toNat
    if computed = stored then .ok () else .error (.checksumMismatch stored computed)

/-- The values the source's tests fix for a whole block and for a block with a tail. -/
example : jenkinsLookup3 [1, 8, 15, 22, 29, 36, 43, 50, 57, 64, 71, 78] = 0x38919c27 ∧
    jenkinsLookup3 [1, 8, 15, 22, 29, 36, 43, 50, 57, 64, 71, 78, 85, 92] = 0x49ef0328 := by
  decide +kernel

end Hdf5Pure.Format
