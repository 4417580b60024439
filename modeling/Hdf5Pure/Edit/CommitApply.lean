import Hdf5Pure.Edit.CommitPlan

/-!
# Applying a commit

`apply_tree_recording` (`src/edit/commit/apply.rs`) and `LinkPatches`
(`src/edit/group/link_patches.rs`): the dirty groups are rebuilt deepest first, each with the links
its plan gives it and the addresses of what was placed before. The address of a new header comes
from the allocator, the parameter `alloc`.
-/

namespace Hdf5Pure.Edit

/-! ## Link regions -/

/-- Drops the first link of each name in `remaining`. -/
def removeLinks : List LinkRecord → List String → Except Error (List LinkRecord)
  | [], [] => .ok []
  | [], _ :: _ => .error (.editUnsupported "link to delete not found in its parent group")
  | r :: links, remaining =>
    if r.name ∈ remaining then removeLinks links (remaining.erase r.name)
    else do
      let links ← removeLinks links remaining
      .ok (r :: links)

/-- The address field of a requested link, or why it cannot be patched. -/
inductive PatchField where
  | address (position : ℕ)
  | missing
  | symbolic
  | trailing
deriving DecidableEq, Repr

def patchField (region : List LinkRecord) (name : String) : PatchField :=
  match region.findIdx? fun r => decide (r.name = name) with
  | none => .missing
  | some position =>
    match (region[position]?).map LinkRecord.target with
    | some (.hard _ false) => .address position
    | some (.hard _ true) => .trailing
    | some .symbolic => .symbolic
    | none => .missing

def patchLink (region : List LinkRecord) (field : PatchField) (object : ObjectId) :
    Except Error (List LinkRecord) :=
  match field with
  | .address position =>
    .ok (region.modify position fun r => { r with target := .hard object false })
  | .symbolic =>
    .error (.editUnsupported "a group on the edited path is reached by a soft/external link")
  | .trailing =>
    .error (.editUnsupported "a link message holds bytes past its hard link address")
  | .missing => .error (.editUnsupported "expected child link not found in parent group")

/-! ## Placement -/

/-- What has been placed so far: the objects, the new headers by path, and the replacements of moved
headers. -/
structure Placement where
  objects : OrdMap ObjectId FileObject
  pathAddr : OrdMap ObjectPath ObjectId
  relocations : OrdMap ObjectId ObjectId

section

variable (alloc : OrdMap ObjectId FileObject → ObjectId)

namespace Placement

def place (p : Placement) (object : FileObject) : ObjectId × Placement :=
  let addr := alloc p.objects
  (addr, { p with objects := p.objects.insert addr object })

def placeDatasets (key : ObjectPath) :
    List String → List LinkRecord → Placement → List LinkRecord × Placement
  | [], region, p => (region, p)
  | name :: names, region, p =>
    let (addr, p) := p.place alloc .dataset
    placeDatasets key names (region ++ [⟨name, .hard addr false⟩])
      { p with pathAddr := p.pathAddr.insert (key ++ [name]) addr }

/-- Moves the headers of the edited datasets, each with the links it holds, and repoints their
links. -/
def placeWrites : List (RelocatedDataset × PatchField) → List LinkRecord → Placement →
    Except Error (List LinkRecord × Placement)
  | [], region, p => .ok (region, p)
  | (write, field) :: writes, region, p => do
    let (addr, p) := p.place alloc ((p.objects.get? write.source).getD .dataset)
    let region ← patchLink region field addr
    placeWrites writes region { p with relocations := p.relocations.insert write.source addr }

def childAddr (p : Placement) (path : ObjectPath) : Except Error ObjectId :=
  match p.pathAddr.get? path with
  | some addr => .ok addr
  | none => .error (.format (.internal "no entry found for key"))

/-- Links the child groups: new ones by a new record, rewritten ones through their field. -/
def linkChildren (p : Placement) :
    List ChildLink → List PatchField → List LinkRecord → Except Error (List LinkRecord)
  | [], _, region => .ok region
  | .insert path leaf :: children, fields, region => do
    let addr ← p.childAddr path
    linkChildren p children fields (region ++ [⟨leaf, .hard addr false⟩])
  | .replace path _ :: children, field :: fields, region => do
    let addr ← p.childAddr path
    let region ← patchLink region field addr
    linkChildren p children fields region
  | .replace _ _ :: _, [], _ =>
    .error (.format (.internal "a group has no remaining prepared link patch"))

end Placement

def replacedLeaves (children : List ChildLink) : List String :=
  children.filterMap fun child =>
    match child with
    | .insert _ _ => none
    | .replace _ leaf => some leaf

def placeGroup (tree : PreparedTree) (group : ObjectPath × Node) (p : Placement) :
    Except Error Placement := do
  let (key, node) := group
  let region ← removeLinks node.region (node.deletes.map PlannedDeletion.name).dedup
  let (region, p) := p.placeDatasets alloc key (datasetsOf tree.staged key) region
  let children := childLinks tree.groups key
  -- every field is located before the first one is written
  let writes := node.writes.map fun write => (write, patchField region write.link)
  let fields := (replacedLeaves children).map (patchField region)
  let (region, p) ← p.placeWrites alloc writes region
  let region ← p.linkChildren children fields region
  let (addr, p) := p.place alloc (.group region)
  .ok { p with pathAddr := p.pathAddr.insert key addr }

def placeGroups (tree : PreparedTree) :
    List (ObjectPath × Node) → Placement → Except Error Placement
  | [], p => .ok p
  | group :: groups, p => do
    let p ← placeGroup alloc tree group p
    placeGroups tree groups p

def recordSuperseded : List (ObjectPath × ObjectId) → Placement → Except Error Placement
  | [], p => .ok p
  | (path, old) :: rest, p =>
    match p.pathAddr.get? path with
    | none => .error (.format (.internal "a superseded group has no successful placement"))
    | some new => recordSuperseded rest { p with relocations := p.relocations.insert old new }

/-- The file after a commit, and the replacements of moved headers. -/
structure AppliedTree where
  file : File
  relocations : OrdMap ObjectId ObjectId

def applyTree (file : File) (tree : PreparedTree) : Except Error AppliedTree := do
  let p ← placeGroups alloc tree tree.order ⟨file.objects, .empty, .empty⟩
  let p ← recordSuperseded tree.superseded p
  let root ← p.childAddr []
  .ok ⟨⟨p.objects, root⟩, p.relocations⟩

end

end Hdf5Pure.Edit
