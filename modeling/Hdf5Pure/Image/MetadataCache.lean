import Hdf5Pure.Core.Error
import Hdf5Pure.Utils.OrdMap

/-!
# The metadata cache

`MetadataReadCache` (`src/source/backend.rs`): a cache of metadata reads by offset and length that
drops the least recently used ones over its byte budget. The access clock and the counters are
natural numbers.
-/

namespace Hdf5Pure.Image

def saturatingAdd (a b : ℕ) : ℕ := min (a + b) (2 ^ 64 - 1)

structure MetadataCacheConfig where
  maxBytes : ℕ
  maxEntryBytes : ℕ
deriving DecidableEq, Repr

def MetadataCacheConfig.isEnabled (config : MetadataCacheConfig) : Bool :=
  decide (0 < config.maxBytes) && decide (0 < config.maxEntryBytes)

/-- Bytes of the file. Owned bytes come with the capacity of their allocation. -/
structure MetadataBytes where
  bytes : Bytes
  capacity : Option ℕ
deriving DecidableEq, Repr

namespace MetadataBytes

def retainedBytes (m : MetadataBytes) : ℕ := m.capacity.getD 0

def shared (m : MetadataBytes) : Option MetadataBytes := m.capacity.map fun _ => m

end MetadataBytes

structure CachedMetadataRead where
  bytes : MetadataBytes
  lastAccess : ℕ
deriving DecidableEq, Repr

abbrev ReadKey := ℕ ×ₗ ℕ

def readKey (offset len : ℕ) : ReadKey := toLex (offset, len)

structure MetadataReadCache where
  entries : OrdMap ReadKey CachedMetadataRead
  byAccess : OrdMap ℕ ReadKey
  currentBytes : ℕ
  tick : ℕ
  longestEntry : ℕ
  hits : ℕ
  misses : ℕ
  oversizeReads : ℕ
  evictions : ℕ
  invalidations : ℕ

def exactMetadata (offset len actual : ℕ) : Except FormatError Unit :=
  if actual ≠ len then
    .error (.source s!"the source returned {actual} bytes for a {len}-byte read at offset {offset}")
  else .ok ()

namespace MetadataReadCache

def new : MetadataReadCache := ⟨.empty, .empty, 0, 0, 0, 0, 0, 0, 0, 0⟩

def remove (c : MetadataReadCache) (key : ReadKey) : MetadataReadCache :=
  match c.entries.get? key with
  | none => c
  | some entry =>
    { c with
      entries := c.entries.remove key
      byAccess := c.byAccess.remove entry.lastAccess
      currentBytes := c.currentBytes - entry.bytes.retainedBytes }

def removeAll : List ReadKey → MetadataReadCache → MetadataReadCache
  | [], c => c
  | key :: keys, c => removeAll keys (c.remove key)

/-- The entries from the first that may reach `offset` on, before the end of the range, that end
past `offset`. -/
def overlappingKeys (c : MetadataReadCache) (offset len : ℕ) : List ReadKey :=
  let stop := saturatingAdd offset len
  let first := offset - c.longestEntry
  (c.entries.keys.filter fun k =>
    decide (first ≤ (ofLex k).1) && decide ((ofLex k).1 < stop)).filter fun k =>
      decide (offset < saturatingAdd (ofLex k).1 (ofLex k).2)

def invalidateOverlapping (c : MetadataReadCache) (offset len : ℕ) : MetadataReadCache :=
  if len = 0 then c
  else
    let keys := c.overlappingKeys offset len
    removeAll keys { c with invalidations := c.invalidations + keys.length }

def get (c : MetadataReadCache) (offset len : ℕ) : Option MetadataBytes × MetadataReadCache :=
  let key := readKey offset len
  let tick := c.tick + 1
  match c.entries.get? key with
  | none => (none, { c with misses := c.misses + 1 })
  | some entry =>
    (some entry.bytes, { c with
      entries := c.entries.insert key { entry with lastAccess := tick }
      tick := tick
      hits := c.hits + 1
      byAccess := (c.byAccess.remove entry.lastAccess).insert tick key })

def evictLoop (maxBytes : ℕ) : ℕ → MetadataReadCache → MetadataReadCache
  | 0, c => c
  | fuel + 1, c =>
    if maxBytes < c.currentBytes then
      match c.byAccess.popFirst with
      | none => c
      | some ((_, key), _) =>
        evictLoop maxBytes fuel ({ c with evictions := c.evictions + 1 }.remove key)
    else c

/-- Removes the least recently used entries until the rest fits. -/
def evictToBudget (c : MetadataReadCache) (maxBytes : ℕ) : MetadataReadCache :=
  evictLoop maxBytes c.byAccess.entries.length c

def insertShared (c : MetadataReadCache) (offset len : ℕ) (bytes : MetadataBytes)
    (maxBytes : ℕ) : MetadataReadCache :=
  if len = 0 ∨ maxBytes < bytes.retainedBytes then c
  else
    let key := readKey offset len
    let c := c.remove key
    let tick := c.tick + 1
    { c with
      tick := tick
      longestEntry := max c.longestEntry len
      currentBytes := c.currentBytes + bytes.retainedBytes
      entries := c.entries.insert key ⟨bytes, tick⟩
      byAccess := c.byAccess.insert tick key }.evictToBudget maxBytes

def admitRead (c : MetadataReadCache) (config : MetadataCacheConfig) (offset len : ℕ)
    (bytes : MetadataBytes) : MetadataReadCache :=
  match bytes.shared with
  | none => c
  | some shared =>
    if shared.retainedBytes ≤ config.maxEntryBytes then
      c.insertShared offset len shared config.maxBytes
    else c

def readThrough (c : MetadataReadCache) (config : MetadataCacheConfig) (offset len : ℕ)
    (read : Except FormatError MetadataBytes) :
    Except FormatError MetadataBytes × MetadataReadCache :=
  if len = 0 ∨ config.isEnabled = false then (read, c)
  else if config.maxEntryBytes < len ∨ config.maxBytes < len then
    (read, { c with oversizeReads := c.oversizeReads + 1 })
  else
    match c.get offset len with
    | (some bytes, c) => (.ok bytes, c)
    | (none, c) =>
      match read with
      | .error e => (.error e, c)
      | .ok bytes =>
        match exactMetadata offset len bytes.bytes.length with
        | .error e => (.error e, c)
        | .ok () => (.ok bytes, c.admitRead config offset len bytes)

end MetadataReadCache

end Hdf5Pure.Image
