import Hdf5Pure.Utils.Checked
import Hdf5Pure.Edit.ObjectGraph

/-!
# Complete topologies

`CompleteTopology` (`src/edit/analysis.rs`): the hard-link graph below the root, with the links of
each object indexed by name and the number of links to each object. The links of an object come
from its header, or from the adjacency an earlier query of the same phase has cached; reading a
header is the parameter `read`, which returns no entry for an object that is not a group.
-/

namespace Hdf5Pure.Edit

/-! ## Paths -/

abbrev ObjectPath := List String

/-- The path of the owner of the last link and the name of that link. -/
def ObjectPath.splitLeaf (path : ObjectPath) : Option (ObjectPath × String) :=
  path.getLast?.map fun leaf => (path.dropLast, leaf)

/-! ## The links of an object -/

/-- The base of stored addresses and their width in bytes. -/
structure AddressContext where
  base : ℕ
  offsets : ℕ

def AddressContext.undefinedAddress (addresses : AddressContext) : ℕ := 2 ^ (8 * addresses.offsets) - 1

def ObjectId.resolve (addresses : AddressContext) (stored : ℕ) : Except FormatError ObjectId :=
  match checkedAdd stored addresses.base with
  | some address => .ok address
  | none => .error (.offsetOverflow stored addresses.base)

/-- A link of a group with its stored target. -/
structure GroupEntry where
  name : String
  objectHeaderAddress : ℕ

/-- Named hard links, and the error of the last link without a target. -/
structure ObjectLinks where
  links : List (HardLink String ObjectId)
  topologyError : Option FormatError

namespace ObjectLinks

def readEntries (addresses : AddressContext) : List GroupEntry → ObjectLinks →
    Except Error ObjectLinks
  | [], links => .ok links
  | entry :: entries, links =>
    if entry.objectHeaderAddress = addresses.undefinedAddress then
      readEntries addresses entries { links with
        topologyError := some
          (.definedAddressIsUndefined entry.objectHeaderAddress addresses.offsets) }
    else
      match ObjectId.resolve addresses entry.objectHeaderAddress with
      | .error e => .error (.format e)
      | .ok target =>
        readEntries addresses entries { links with links := links.links ++ [⟨entry.name, target⟩] }

def read (addresses : AddressContext) (entries : List GroupEntry) : Except Error ObjectLinks :=
  readEntries addresses entries ⟨[], none⟩

end ObjectLinks

/-! ## Topologies -/

/-- An object with its links indexed by name. -/
structure TopologyObject where
  id : ObjectId
  names : OrdMap String ℕ

/-- The hard-link graph of a source phase, which `identity` stands for. -/
structure CompleteTopology where
  identity : ℕ
  graph : ObjectGraph TopologyObject Unit
  indices : OrdMap ObjectId ObjectIndex
  incoming : OrdMap ObjectId ℕ

namespace CompleteTopology

def countLinks : List (HardLink String ObjectId) → OrdMap ObjectId ℕ →
    Except Error (OrdMap ObjectId ℕ)
  | [], incoming => .ok incoming
  | link :: links, incoming =>
    let count := (incoming.get? link.target).getD 0
    if count + 1 < 2 ^ 32 then
      countLinks links (incoming.insert link.target (count + 1))
    else .error (.traversalLimitExceeded .links (2 ^ 32 - 1))

/-- The position of the first link of each name, from `position` on. -/
def indexNames : List (HardLink String ObjectId) → ℕ → OrdMap String ℕ → OrdMap String ℕ
  | [], _, names => names
  | link :: links, position, names =>
    indexNames links (position + 1)
      (if (names.get? link.label).isSome then names else names.insert link.label position)

def objectLinks (addresses : AddressContext) (cached : OrdMap ObjectId ObjectLinks)
    (read : ObjectId → Except Error (List GroupEntry)) (id : ObjectId) : Except Error ObjectLinks :=
  match cached.get? id with
  | some links => .ok links
  | none =>
    match read id with
    | .error e => .error e
    | .ok entries => ObjectLinks.read addresses entries

def expand (addresses : AddressContext) (cached : OrdMap ObjectId ObjectLinks)
    (read : ObjectId → Except Error (List GroupEntry)) (id : ObjectId)
    (incoming : OrdMap ObjectId ℕ) :
    Except Error (Expansion TopologyObject Unit × OrdMap ObjectId ℕ) := do
  let object ← objectLinks addresses cached read id
  match object.topologyError with
  | some error => .error (.format error)
  | none =>
    let incoming ← countLinks object.links incoming
    .ok (⟨⟨id, indexNames object.links 0 .empty⟩,
      object.links.map fun link => ⟨(), link.target⟩⟩, incoming)

def discoverCached (addresses : AddressContext) (root : ObjectId) (budget : TraversalBudget)
    (cached : OrdMap ObjectId ObjectLinks) (read : ObjectId → Except Error (List GroupEntry))
    (identity : ℕ) : Except Error CompleteTopology :=
  match ObjectGraph.discoverIndexed budget root (expand addresses cached read) .empty with
  | .error e => .error e.toError
  | .ok (graph, indices, incoming) => .ok ⟨identity, graph, indices, incoming⟩

/-- The object at a position. Positions of links lie inside the graph, where the source indexes
without a check. -/
def object (t : CompleteTopology) (index : ObjectIndex) : Option (GraphObject TopologyObject Unit) :=
  t.graph.objects[index]?

/-- The number of hard links to an object, or `none` without a link to it. -/
def incomingLinks (t : CompleteTopology) (address : ObjectId) : Option ℕ := t.incoming.get? address

def children (t : CompleteTopology) (address : ObjectId) : List ObjectId :=
  match t.indices.get? address with
  | none => []
  | some index =>
    match t.object index with
    | none => []
    | some o => o.links.filterMap fun link => (t.object link.target).map fun target => target.value.id

/-- The loop of `find_link`: follows the names from the object at `index`. -/
def findLinkFrom (t : CompleteTopology) :
    ObjectIndex → Option (LinkIndex × ObjectId) → ObjectPath → Option (LinkIndex × ObjectId)
  | _, found, [] => found
  | index, _, name :: path => do
    let o ← t.object index
    let position ← o.value.names.get? name
    let link ← o.links[position]?
    let target ← t.object link.target
    findLinkFrom t link.target (some (⟨index, position⟩, target.value.id)) path

/-- Follows the names of a path from the root, and returns the last link and its target. -/
def findLink (t : CompleteTopology) (path : ObjectPath) : Option (LinkIndex × ObjectId) :=
  t.findLinkFrom 0 none path

end CompleteTopology

end Hdf5Pure.Edit
