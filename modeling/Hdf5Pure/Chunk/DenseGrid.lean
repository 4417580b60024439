import Hdf5Pure.Utils.Checked

/-!
# Dense chunk grids

The plan of a dense grid and the proof of dense coverage (`src/chunked_read.rs`). The plan counts slots
in unchecked `u64` arithmetic, which wraps in a release build; the coverage checks every product.
-/

namespace Hdf5Pure.Chunk

structure ChunkInfo where
  chunkSize : ℕ
  filterMask : ℕ
  /-- The position of the chunk in the dataset. -/
  offsets : List ℕ
  address : ℕ
deriving DecidableEq, Repr

def divCeil (n d : ℕ) : ℕ := if n % d = 0 then n / d else n / d + 1

def numChunksPerDim : List ℕ → List ℕ → Option (List ℕ)
  | dim :: dims, chunk :: chunkDims =>
    if chunk = 0 then none else (numChunksPerDim dims chunkDims).map (divCeil dim chunk :: ·)
  | _, _ => some []

/-- `iter().product()` of `u64` values. -/
def wrappingProduct (counts : List ℕ) : ℕ := counts.foldl (fun acc n => acc * n % 2 ^ 64) 1

/-- The linear slot of a chunk, unless it is misaligned or outside the grid. -/
def linearSlot : List ℕ → List ℕ → List ℕ → ℕ → Option ℕ
  | n :: counts, chunk :: chunkDims, offset :: offsets, linear =>
    if offset % chunk ≠ 0 then none
    else if n ≤ offset / chunk then none
    else linearSlot counts chunkDims offsets ((linear * n + offset / chunk) % 2 ^ 64)
  | _, _, _, linear => some linear

def fillSlots (rank : ℕ) (counts chunkDims : List ℕ) :
    List ChunkInfo → List (Option ChunkInfo) → Checked (Option (List (Option ChunkInfo)))
  | [], slots => .ok (some slots)
  | info :: infos, slots =>
    if info.offsets.length < rank then .ok none
    else
      match linearSlot counts chunkDims info.offsets 0 with
      | none => .ok none
      | some slot =>
        match slots[slot]? with
        | none => .error ⟨"index out of bounds"⟩
        | some (some _) => .ok none
        | some none => fillSlots rank counts chunkDims infos (slots.set slot (some info))

def planDenseGrid (infos : List ChunkInfo) (dims chunkDims : List ℕ) :
    Checked (Option (List ChunkInfo)) :=
  let rank := dims.length
  if chunkDims.length < rank then .ok none
  else
    match numChunksPerDim dims chunkDims with
    | none => .ok none
    | some counts =>
      let total := wrappingProduct counts
      if infos.length ≠ total then .ok none
      else do
        let slots ← fillSlots rank counts chunkDims infos (List.replicate total none)
        .ok (slots.bind fun slots => slots.mapM id)

/-! ## Coverage -/

structure DenseCoverage where
  chunkDims : List ℕ
  dsDims : List ℕ
deriving DecidableEq, Repr

/-- The numbers of elements of a chunk, of elements of the dataset and of slots. -/
def coverageCounts : List ℕ → List ℕ → ℕ × ℕ × ℕ → Option (ℕ × ℕ × ℕ)
  | chunk :: chunkDims, extent :: dsDims, (chunkElements, elements, slots) =>
    if chunk = 0 then none
    else do
      let chunkElements ← checkedMul chunkElements chunk
      let elements ← checkedMul elements extent
      let slots ← checkedMul slots (divCeil extent chunk)
      coverageCounts chunkDims dsDims (chunkElements, elements, slots)
  | _, _, counts => some counts

def coveredSlot : List ℕ → List ℕ → List ℕ → ℕ × ℕ → Option (ℕ × ℕ)
  | offset :: coord, chunk :: chunkDims, extent :: dsDims, (slot, contribution) =>
    if offset % chunk ≠ 0 ∨ extent ≤ offset then none
    else do
      let scaled ← checkedMul slot (divCeil extent chunk)
      let slot ← checkedAdd scaled (offset / chunk)
      let contribution ← checkedMul contribution (min chunk (extent - offset))
      coveredSlot coord chunkDims dsDims (slot, contribution)
  | _, _, _, result => some result

/-- The number of elements that chunks in distinct slots cover. `seen` are the slots before. -/
def coveredElements (chunkDims dsDims : List ℕ) (slots : ℕ) : List (List ℕ) → List ℕ → ℕ → Option ℕ
  | [], _, covered => some covered
  | coord :: rest, seen, covered =>
    if coord.length ≠ dsDims.length then none
    else do
      let (slot, contribution) ← coveredSlot coord chunkDims dsDims (0, 1)
      -- the word of the slot's bit
      if divCeil slots 64 ≤ slot / 64 then none
      else if seen.contains slot then none
      else
        let covered ← checkedAdd covered contribution
        coveredElements chunkDims dsDims slots rest (slot :: seen) covered

def DenseCoverage.new (coords : List (List ℕ)) (chunkDims dsDims : List ℕ) : Option DenseCoverage :=
  if chunkDims.length ≠ dsDims.length ∨ chunkDims = [] then none
  else do
    let (_, elements, slots) ← coverageCounts chunkDims dsDims (1, 1, 1)
    if coords.length ≠ slots then none
    else
      let covered ← coveredElements chunkDims dsDims slots coords [] 0
      if covered ≠ elements then none else some ⟨chunkDims, dsDims⟩

end Hdf5Pure.Chunk
