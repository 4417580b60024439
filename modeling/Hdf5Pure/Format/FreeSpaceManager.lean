import Hdf5Pure.Core.Address
import Hdf5Pure.Format.Checksum

/-!
# Free-space managers of a file

`crates/hdf5-pure-format/src/free_space_manager.rs`: the header of a manager (`FSHD`), its section
list (`FSSE`), and the records of the file client in it. A field reader that runs off its block
cannot occur after the length checks, so its error is that of `uintAt`.
-/

namespace Hdf5Pure.Format

def fshdSignature : Bytes := [0x46, 0x53, 0x48, 0x44]

def fsseSignature : Bytes := [0x46, 0x53, 0x53, 0x45]

def checksumLen : ℕ := 4

def sectionClassLen : ℕ := 1

/-- The section classes and the client ID of a file's managers. -/
def fileFsmNumClasses : ℕ := 3

def fileFsmClientId : ℕ := 1

def hexDigit (n : ℕ) : String := String.singleton (Nat.digitChar n)

def escapeByte (b : UInt8) : String :=
  if b = 9 then "\\t"
  else if b = 13 then "\\r"
  else if b = 10 then "\\n"
  else if b = 34 ∨ b = 39 ∨ b = 92 then "\\" ++ String.singleton (Char.ofNat b.toNat)
  else if 32 ≤ b ∧ b < 127 then String.singleton (Char.ofNat b.toNat)
  else "\\x" ++ hexDigit (b.toNat / 16) ++ hexDigit (b.toNat % 16)

def escapeAscii (bytes : Bytes) : String := String.join (bytes.map escapeByte)

def signatureError (block : String) (found expected : Bytes) : FormatError :=
  .invalidFreeSpaceManager ("the " ++ block ++ " signature is b\"" ++ escapeAscii found ++
    "\", not b\"" ++ escapeAscii expected ++ "\"")

/-- One free region of a file: the address the file stores for it and its length. -/
structure StoredSection where
  addr : ℕ
  size : ℕ
deriving DecidableEq, Repr

/-! ## Headers -/

def freeSpaceManagerHeaderLen (widths : FormatWidths) : ℕ :=
  4 + 1 + 1 + 4 * widths.lengths.get + 2 * 4 + widths.lengths.get + widths.offsets.get +
    widths.lengths.get + widths.lengths.get + checksumLen

/-- The common fields of a manager header. -/
structure FreeSpaceManagerHeaderFrame where
  clientId : ℕ
  totalSpace : ℕ
  totalSections : ℕ
  serializedSections : ℕ
  unserializedSections : ℕ
  sectionClasses : ℕ
  shrinkPercent : ℕ
  expandPercent : ℕ
  addrSpaceBits : ℕ
  maxSectionSize : ℕ
  sectionListAddr : Option ℕ
  sectionListUsed : ℕ
  sectionListAllocated : ℕ
  widths : FormatWidths
deriving DecidableEq, Repr

/-- The fields that a reader of the section list needs. -/
structure FreeSpaceManagerHeader where
  totalSpace : ℕ
  totalSections : ℕ
  addrSpaceBits : ℕ
  maxSectionSize : ℕ
  sectionListAddr : ℕ
  sectionListUsed : ℕ
  sectionListAllocated : ℕ
deriving DecidableEq, Repr

/-- The widths of the number of sections of a set, of their size, and of the offset of a section. -/
structure SectionFields where
  count : ℕ
  size : ℕ
  offset : ℕ
deriving DecidableEq, Repr

def sectionListPrefixLen (offsets : OffsetWidth) : ℕ := 4 + 1 + offsets.get

/-- The fewest bytes that hold `value`, at least one. -/
def encSize (value : ℕ) : ℕ := max 1 ((value.size + 7) / 8)

namespace FreeSpaceManagerHeader

def sectionSizeWidth (header : FreeSpaceManagerHeader) (lengths : LengthWidth) (offset : ℕ) : ℕ :=
  if lengths ≠ .eight ∧ lengthWidthMax lengths - 1 ≤ header.maxSectionSize then offset
  else encSize header.maxSectionSize

def sectionFields (header : FreeSpaceManagerHeader) (lengths : LengthWidth) : SectionFields :=
  let offset := (header.addrSpaceBits + 7) / 8
  ⟨encSize header.totalSections, header.sectionSizeWidth lengths offset, offset⟩

end FreeSpaceManagerHeader

/-- The most sections a section list of `listLen` bytes holds. -/
def SectionFields.maxSections (fields : SectionFields) (offsets : OffsetWidth) (listLen : ℕ) : ℕ :=
  match checkedSub listLen
      (sectionListPrefixLen offsets + fields.count + fields.size + checksumLen) with
  | some payload => payload / (fields.offset + sectionClassLen)
  | none => 0

namespace FreeSpaceManagerHeaderFrame

def parseFields (widths : FormatWidths) (block : Bytes) :
    Except FormatError FreeSpaceManagerHeaderFrame := do
  let l := widths.lengths.get
  let o := widths.offsets.get
  let version ← uintAt block 4 1
  if version ≠ 0 then .error (.unsupportedVersion version)
  else do
    let clientId ← uintAt block 5 1
    let totalSpace ← uintAt block 6 l
    let totalSections ← uintAt block (6 + l) l
    let serializedSections ← uintAt block (6 + 2 * l) l
    let unserializedSections ← uintAt block (6 + 3 * l) l
    let sectionClasses ← uintAt block (6 + 4 * l) 2
    let shrinkPercent ← uintAt block (8 + 4 * l) 2
    let expandPercent ← uintAt block (10 + 4 * l) 2
    let bits ← uintAt block (12 + 4 * l) 2
    if bits < 1 ∨ 64 < bits then
      .error (.invalidFreeSpaceManager s!"an address space of {bits} bits is not 1 to 64 bits wide")
    else do
      let maxSectionSize ← uintAt block (14 + 4 * l) l
      let sectionListAddr ← decodeStoredAddress widths.offsets block (14 + 5 * l)
      let used ← uintAt block (14 + 5 * l + o) l
      let allocated ← uintAt block (14 + 6 * l + o) l
      if allocated < used then
        .error (.invalidFreeSpaceManager (s!"the section list uses {used} bytes, more than the " ++
          s!"{allocated} bytes allocated to it"))
      else
        .ok ⟨clientId, totalSpace, totalSections, serializedSections, unserializedSections,
          sectionClasses, shrinkPercent, expandPercent, bits, maxSectionSize, sectionListAddr, used,
          allocated, widths⟩

def parse (widths : FormatWidths) (data : Bytes) : Except FormatError FreeSpaceManagerHeaderFrame :=
  if data.length < freeSpaceManagerHeaderLen widths then
    .error (.unexpectedEof (freeSpaceManagerHeaderLen widths) data.length)
  else
    let block := data.take (freeSpaceManagerHeaderLen widths)
    if block.take 4 ≠ fshdSignature then
      .error (signatureError "header" (block.take 4) fshdSignature)
    else do
      verifyTrailing block
      parseFields widths block

def toHeader (frame : FreeSpaceManagerHeaderFrame) : FreeSpaceManagerHeader :=
  ⟨frame.totalSpace, frame.totalSections, frame.addrSpaceBits, frame.maxSectionSize,
    frame.sectionListAddr.getD (undefinedAddress frame.widths.offsets), frame.sectionListUsed,
    frame.sectionListAllocated⟩

def fileHeader (frame : FreeSpaceManagerHeaderFrame) : Except FormatError FreeSpaceManagerHeader :=
  let total := frame.totalSections
  let serialized := frame.serializedSections
  let unserialized := frame.unserializedSections
  let client := frame.clientId
  let classes := frame.sectionClasses
  let space := frame.totalSpace
  let used := frame.sectionListUsed
  let maximum := (frame.toHeader.sectionFields frame.widths.lengths).maxSections
    frame.widths.offsets used
  if client ≠ fileFsmClientId then
    .error (.invalidFreeSpaceManager
      s!"the client ID is {client}, not {fileFsmClientId}, the ID of the file client")
  else if ¬(serialized = total ∧ unserialized = 0) then
    .error (.invalidFreeSpaceManager (s!"the header's section count is {total}, its serialized " ++
      s!"section count {serialized} and its unserialized section count {unserialized}, " ++
      "and the file client serializes every section"))
  else if fileFsmNumClasses < classes then
    .error (.invalidFreeSpaceManager (s!"the header registers {classes} section classes, more " ++
      s!"than the {fileFsmNumClasses} of the file client"))
  else if total = 0 then
    if space ≠ 0 then
      .error (.invalidFreeSpaceManager s!"the empty manager tracks {space} bytes")
    else .ok frame.toHeader
  else if frame.sectionListAddr = none then
    .error (.invalidFreeSpaceManager
      s!"the header's section count is {total}, and it stores no section list")
  else if maximum < total then
    .error (.invalidFreeSpaceManager (s!"the header's section count is {total}, and a section " ++
      s!"list of {used} bytes holds at most {maximum}"))
  else .ok frame.toHeader

end FreeSpaceManagerHeaderFrame

def FreeSpaceManagerHeader.parse (widths : FormatWidths) (data : Bytes) :
    Except FormatError FreeSpaceManagerHeader := do
  let frame ← FreeSpaceManagerHeaderFrame.parse widths data
  frame.fileHeader

/-! ## Section lists -/

/-- A section list: its allocation, the bytes in use, and the address of its header. -/
structure FreeSpaceManagerSectionListRef where
  range : FileRange
  parseRange : FileRange
  offsets : OffsetWidth
  headerAddr : ℕ
deriving DecidableEq, Repr

def FreeSpaceManagerHeaderFrame.sectionListRef (frame : FreeSpaceManagerHeaderFrame)
    (headerAddr address : ℕ) : Except FormatError FreeSpaceManagerSectionListRef :=
  let minimum := sectionListPrefixLen frame.widths.offsets + checksumLen
  let used := frame.sectionListUsed
  if frame.sectionListAddr = none then
    .error (.invalidFreeSpaceManager "the header stores no section list address")
  else if undefinedAddress frame.widths.offsets < headerAddr then
    .error (.addressTooLarge headerAddr frame.widths.offsets.get)
  else if headerAddr = undefinedAddress frame.widths.offsets then
    .error (.invalidFreeSpaceManager "the section list's expected header address is undefined")
  else if used < minimum then
    .error (.invalidFreeSpaceManager
      s!"the section list uses {used} bytes, fewer than its {minimum}-byte prefix and checksum")
  else do
    let range ← FileRange.new address frame.sectionListAllocated
    let parseRange ← FileRange.new address used
    .ok ⟨range, parseRange, frame.widths.offsets, headerAddr⟩

/-- Checks the signature, the checksum, the version and the header address of a section list. -/
def parseSectionListPrefix (offsets : OffsetWidth) (list : Bytes) (headerAddr : ℕ) :
    Except FormatError Unit :=
  if list.length < sectionListPrefixLen offsets + checksumLen then
    .error (.unexpectedEof (sectionListPrefixLen offsets + checksumLen) list.length)
  else if list.take 4 ≠ fsseSignature then
    .error (signatureError "section list" (list.take 4) fsseSignature)
  else do
    verifyTrailing list
    let version ← uintAt list 4 1
    if version ≠ 0 then .error (.unsupportedVersion version)
    else do
      let stored ← decodeStoredAddress offsets list 5
      let owner := stored.getD (undefinedAddress offsets)
      if owner ≠ headerAddr then
        .error (.invalidFreeSpaceManager
          s!"the section list belongs to the header at {owner}, not to the header at {headerAddr}")
      else .ok ()

namespace SectionFields

/-- A field of a section list whose checksum `body` leaves out. -/
def field (body : Bytes) (pos width : ℕ) (name : String) : Except FormatError ℕ :=
  let stop := body.length
  if pos + width ≤ stop then .ok (leNat (slice body pos width))
  else .error (.invalidFreeSpaceManager
    (s!"the {name} at byte {pos} of the section list runs into its checksum at byte {stop}"))

def visitSet (fields : SectionFields) (body : Bytes) (total size : ℕ) :
    ℕ → ℕ → List StoredSection → Except FormatError (ℕ × List StoredSection)
  | 0, pos, sections => .ok (pos, sections)
  | count + 1, pos, sections =>
    if sections.length = total then
      .error (.invalidFreeSpaceManager
        s!"the sets hold more sections than the header's count of {total}")
    else do
      let addr ← field body pos fields.offset "offset of a section"
      let cls ← field body (pos + fields.offset) sectionClassLen "class of a section"
      if fileFsmNumClasses ≤ cls then
        .error (.invalidFreeSpaceManager (s!"the class of the section at byte {pos} of the " ++
          s!"section list is {cls}, not one of the {fileFsmNumClasses} classes of the file client"))
      else
        visitSet fields body total size count (pos + fields.offset + sectionClassLen)
          (sections ++ [⟨addr, size⟩])

/-- The sections of the sets from `pos` on. Every set emits a section, so the missing sections bound
the sets. -/
def visitSets (fields : SectionFields) (body : Bytes) (total : ℕ) :
    ℕ → ℕ → List StoredSection → Except FormatError (List StoredSection)
  | 0, _, sections => .ok sections
  | fuel + 1, pos, sections =>
    if total ≤ sections.length then .ok sections
    else do
      let count ← field body pos fields.count "section count of a set"
      if count = 0 then
        .error (.invalidFreeSpaceManager
          s!"the set at byte {pos} of the section list holds no sections")
      else do
        let size ← field body (pos + fields.count) fields.size "section size of a set"
        if size = 0 then
          .error (.invalidFreeSpaceManager
            s!"the set at byte {pos} of the section list holds sections of 0 bytes")
        else do
          let (pos, sections) ←
            visitSet fields body total size count (pos + fields.count + fields.size) sections
          visitSets fields body total fuel pos sections

end SectionFields

def parseSectionInfo (widths : FormatWidths) (data : Bytes) (headerAddr : ℕ)
    (header : FreeSpaceManagerHeader) : Except FormatError (List StoredSection) :=
  if data.length < header.sectionListUsed then
    .error (.unexpectedEof header.sectionListUsed data.length)
  else do
    let list := data.take header.sectionListUsed
    parseSectionListPrefix widths.offsets list headerAddr
    let body := list.take (list.length - checksumLen)
    let sections ← (header.sectionFields widths.lengths).visitSets body header.totalSections
      header.totalSections (sectionListPrefixLen widths.offsets) []
    let space := (sections.map StoredSection.size).sum
    let expected := header.totalSpace
    if space ≠ expected then
      .error (.invalidFreeSpaceManager
        s!"the sections sum to {space} bytes, not the header's total of {expected}")
    else .ok sections

end Hdf5Pure.Format
