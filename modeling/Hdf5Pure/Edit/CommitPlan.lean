import Hdf5Pure.Edit.Deletions

/-!
# Planning a commit

The preflight of a commit (`src/edit/commit/plan.rs`): the staged dataset edits that move a header,
the groups that have to be rewritten, their headers and the checks between the edits. A file is its
objects by header address, each a group with its link messages in order or a dataset, and its root.
Copies, value references and the choice of link storage are left out: they reject commits or add
objects of their own.
-/

namespace Hdf5Pure.Edit

/-! ## Files -/

/-- The target of a link message. `trailing` marks bytes after the address of a hard link. -/
inductive LinkTarget where
  | hard (object : ObjectId) (trailing : Bool)
  | symbolic
deriving DecidableEq, Repr

structure LinkRecord where
  name : String
  target : LinkTarget
deriving DecidableEq, Repr

def LinkRecord.hardTarget (r : LinkRecord) : Option ObjectId :=
  match r.target with
  | .hard object _ => some object
  | .symbolic => none

/-- An object header, as far as its links go. -/
inductive FileObject where
  | group (links : List LinkRecord)
  | dataset
deriving DecidableEq, Repr

/-- The objects of a file and the root the superblock names. -/
structure File where
  objects : OrdMap ObjectId FileObject
  root : ObjectId

def findNamed (links : List LinkRecord) (name : String) : Option LinkRecord :=
  links.find? fun r => decide (r.name = name)

namespace File

def entries (file : File) (id : ObjectId) : Except Error (List GroupEntry) :=
  match file.objects.get? id with
  | none => .error (.format .invalidObjectHeaderSignature)
  | some .dataset => .ok []
  | some (.group links) =>
    .ok (links.filterMap fun r => r.hardTarget.map fun object => ⟨r.name, object⟩)

/-- The topology of an analysis phase, `none` if the links cannot be walked. -/
def topology (file : File) : Option CompleteTopology :=
  (CompleteTopology.discoverCached ⟨0, 8⟩ file.root ⟨2 ^ 24, 2 ^ 64 - 1⟩ .empty file.entries
    0).toOption

/-- The loop of `resolve_path_any_from_source`, at `current` after the components `walked`. -/
def resolveFrom (file : File) : ObjectId → ObjectPath → ObjectPath → Except Error ObjectId
  | current, _, [] => .ok current
  | current, walked, name :: rest =>
    match file.objects.get? current with
    | none => .error (.format .invalidObjectHeaderSignature)
    | some .dataset => .error (.notAGroup ("/".intercalate walked))
    | some (.group links) =>
      match (findNamed links name).bind LinkRecord.hardTarget with
      | some child => file.resolveFrom child (walked ++ [name]) rest
      | none => .error (.format (.pathNotFound ("/".intercalate (walked ++ [name]))))

def resolve (file : File) (path : ObjectPath) : Except Error ObjectId :=
  file.resolveFrom file.root [] path

def inspectGroup (file : File) (addr : ObjectId) : Except Error (List LinkRecord) :=
  match file.objects.get? addr with
  | none => .error (.format .invalidObjectHeaderSignature)
  | some .dataset => .error (.editUnsupported "a target path names a dataset, not a group")
  | some (.group links) =>
    if (links.map LinkRecord.name).Nodup then .ok links
    else .error (.editUnsupported "a group's links or link-info metadata cannot be reproduced")

end File

/-! ## Staged edits -/

/-- How a value write is carried out. -/
inductive WritePlan where
  | inPlace
  | moving
deriving DecidableEq, Repr

/-- A dataset to create, and whether its values hold references to staged objects. -/
structure FlatDataset where
  name : String
  references : Bool
deriving DecidableEq, Repr

structure StagedEdits where
  writes : List (ObjectPath × WritePlan)
  /-- The flag marks an append of no elements. -/
  appends : List (ObjectPath × Bool)
  datasetAttrs : List ObjectPath
  groups : List ObjectPath
  datasets : List (ObjectPath × FlatDataset)
  groupAttrs : List ObjectPath
  deletes : List ObjectPath

def StagedEdits.onlyDatasets (staged : StagedEdits) : Bool :=
  staged.groups.isEmpty && staged.datasets.isEmpty && staged.groupAttrs.isEmpty
    && staged.deletes.isEmpty

/-! ## Edits of datasets -/

/-- A dataset whose header moves, by the link its parent group holds. -/
structure RelocatedDataset where
  link : String
  source : ObjectId
deriving DecidableEq, Repr

structure DatasetRelocation where
  parent : ObjectPath
  edit : RelocatedDataset
deriving DecidableEq, Repr

structure DatasetEdits where
  movingWrites : List DatasetRelocation
  writeTargets : List ObjectPath

/-- `error` unless `addr` has exactly one hard link. -/
def requireSingleLink (topology : Option CompleteTopology) (addr : ObjectId) (error : Error) :
    Except Error Unit :=
  if topology.bind (fun t => t.incomingLinks addr) = some 1 then .ok () else .error error

/-- Records a moving write of `full`, which is the link `leaf` of `parent`. -/
def DatasetEdits.move (edits : DatasetEdits) (full parent : ObjectPath) (leaf : String)
    (addr : ObjectId) : DatasetEdits :=
  ⟨edits.movingWrites ++ [⟨parent, ⟨leaf, addr⟩⟩], edits.writeTargets ++ [full]⟩

section

variable (file : File) (topology : Option CompleteTopology)

def prepareValueWrites : List (ObjectPath × WritePlan) → DatasetEdits → Except Error DatasetEdits
  | [], edits => .ok edits
  | (full, plan) :: rest, edits =>
    if full ∈ edits.writeTargets then
      .error (.editUnsupported
        "the same dataset is overwritten twice in one commit; use separate commits")
    else do
      let addr ← file.resolve full
      match plan with
      | .inPlace => prepareValueWrites rest { edits with writeTargets := edits.writeTargets ++ [full] }
      | .moving =>
        requireSingleLink topology addr (.editUnsupported ("overwriting a dataset that resizes or " ++
          "relocates its header is only supported when it has a single hard link"))
        match full.splitLeaf with
        | none => .error (.editUnsupported "cannot overwrite the root group")
        | some (parent, leaf) => prepareValueWrites rest (edits.move full parent leaf addr)

def prepareAppends : List (ObjectPath × Bool) → DatasetEdits → Except Error DatasetEdits
  | [], edits => .ok edits
  | (full, empty) :: rest, edits =>
    match full.splitLeaf with
    | none => .error (.appendUnsupported "cannot append to the root group")
    | some (parent, leaf) =>
      if empty then prepareAppends rest edits
      else if full ∈ edits.writeTargets then
        .error (.appendUnsupported
          "the same dataset is edited more than once in one commit; use separate commits")
      else do
        let addr ← file.resolve full
        requireSingleLink topology addr (.appendUnsupported ("appending relocates the dataset " ++
          "header; only supported when it has a single hard link"))
        prepareAppends rest (edits.move full parent leaf addr)

/-- The loop of `prepare_dataset_attributes` over the distinct paths, in the order of their first
operation. -/
def prepareDatasetAttributes : List ObjectPath → DatasetEdits → Except Error DatasetEdits
  | [], edits => .ok edits
  | full :: rest, edits =>
    match full.splitLeaf with
    | none => .error (.editUnsupported
        "cannot set a dataset attribute on the root group; use set_group_attr")
    | some (parent, leaf) =>
      if full ∈ edits.writeTargets then
        .error (.editUnsupported ("the same dataset is edited more than once in one commit " ++
          "(an attribute edit plus another edit); use separate commits"))
      else do
        let addr ← file.resolve full
        requireSingleLink topology addr (.editUnsupported ("editing a dataset attribute relocates " ++
          "its header; only supported when it has a single hard link"))
        prepareDatasetAttributes rest (edits.move full parent leaf addr)

def distinctPaths (paths : List ObjectPath) : List ObjectPath := paths.reverse.dedup.reverse

def prepareDatasetEdits (staged : StagedEdits) : Except Error DatasetEdits := do
  let edits ← prepareValueWrites file topology staged.writes ⟨[], []⟩
  let edits ← prepareAppends file topology staged.appends edits
  prepareDatasetAttributes file topology (distinctPaths staged.datasetAttrs) edits

end

/-! ## Dirty groups -/

/-- A group to rewrite or create: its links, the header it replaces, and the edits of its links. -/
structure Node where
  isNew : Bool
  region : List LinkRecord
  replaces : Option ObjectId
  deletes : List PlannedDeletion
  writes : List RelocatedDataset
deriving Repr

def Node.default : Node := ⟨false, [], none, [], []⟩

abbrev Nodes := OrdMap ObjectPath Node

namespace Nodes

def modify (nodes : Nodes) (path : ObjectPath) (f : Node → Node) : Nodes :=
  nodes.insert path (f ((nodes.get? path).getD .default))

def ensureAncestors (nodes : Nodes) (path : ObjectPath) : Nodes :=
  (List.range (path.length + 1)).foldl (fun nodes len => nodes.modify (path.take len) id) nodes

def addGroups : List ObjectPath → Nodes → Except Error Nodes
  | [], nodes => .ok nodes
  | path :: rest, nodes =>
    if path.isEmpty then .error (.editUnsupported "cannot create the root group")
    else addGroups rest
      ((nodes.ensureAncestors path).modify path fun node => { node with isNew := true })

def addWrites (moving : List DatasetRelocation) (nodes : Nodes) : Nodes :=
  moving.foldl (fun nodes relocation =>
    (nodes.ensureAncestors relocation.parent).modify relocation.parent fun node =>
      { node with writes := node.writes ++ [relocation.edit] }) nodes

end Nodes

/-- The paths other edits of the commit name. -/
structure EditTargets where
  adds : List ObjectPath
  attrs : List ObjectPath
  writes : List ObjectPath
  deletes : List ObjectPath

def StagedEdits.targets (staged : StagedEdits) (edits : DatasetEdits) : EditTargets :=
  ⟨staged.groups ++ staged.datasets.map fun d => d.1 ++ [d.2.name], staged.groupAttrs,
    edits.writeTargets, staged.deletes⟩

/-- The conflicts of the deletion `d`, the `index`-th one, with the other edits. -/
def checkDeletion (nodes : Nodes) (targets : EditTargets) (index : ℕ) (d : ObjectPath) :
    Except Error Unit :=
  let recreated := targets.adds.any fun t => decide (t = d)
  if recreated && !(nodes.entries.all fun e => !d.isPrefixOf e.1 || e.2.isNew) then
    .error (.editUnsupported ("a staged edit names a group at or under a replaced path that this " ++
      "commit does not itself create; create it in the same commit, or use separate commits"))
  else if targets.adds.any fun t =>
      !(recreated && d.isPrefixOf t) && (d.isPrefixOf t || t.isPrefixOf d) then
    .error (.editUnsupported ("a deletion overlaps an addition in the same commit; " ++
      "replace the path instead, or use separate commits"))
  else if targets.attrs.any fun t => !(recreated && d.isPrefixOf t) && d.isPrefixOf t then
    .error (.editUnsupported ("a deletion overlaps a group-attribute edit in the same commit; " ++
      "use separate commits"))
  else if targets.writes.any fun t => d.isPrefixOf t then
    .error (.editUnsupported ("a deletion overlaps a staged edit to a dataset in the same commit; " ++
      "use separate commits"))
  else if targets.deletes.zipIdx.any fun e => decide (e.2 ≠ index) && d.isPrefixOf e.1 then
    .error (.editUnsupported
      "overlapping deletions in one commit; delete the common parent only")
  else .ok ()

section

variable (file : File) (topology : Option CompleteTopology)

def planDeletion (d : ObjectPath) (leaf : String) : Except Error PlannedDeletion :=
  match topology.bind fun t => t.deletion d with
  | some deletion => .ok deletion
  | none => do
    let target ← file.resolve d
    .ok ⟨leaf, .unresolved target⟩

def planDeletions (targets : EditTargets) : ℕ → List ObjectPath → Nodes → Except Error Nodes
  | _, [], nodes => .ok nodes
  | index, d :: rest, nodes =>
    match d.splitLeaf with
    | none => .error (.editUnsupported "cannot delete the root group")
    | some (parent, leaf) => do
      let deletion ← planDeletion file topology d leaf
      checkDeletion nodes targets index d
      planDeletions targets (index + 1) rest
        ((nodes.ensureAncestors parent).modify parent fun node =>
          { node with deletes := node.deletes ++ [deletion] })

def planDirtyGroups (staged : StagedEdits) (edits : DatasetEdits) : Except Error Nodes := do
  let nodes ← Nodes.addGroups staged.groups (Nodes.modify .empty [] id)
  let nodes := (staged.datasets.map Prod.fst).foldl Nodes.ensureAncestors nodes
  let nodes := Nodes.addWrites edits.movingWrites nodes
  let nodes := staged.groupAttrs.foldl Nodes.ensureAncestors nodes
  planDeletions file topology (staged.targets edits) 0 staged.deletes nodes

/-! ## Group headers -/

/-- An existing group other than the root has to have one hard link. -/
def requireEditable (key : ObjectPath) (addr : ObjectId) : Except Error Unit :=
  if key.isEmpty then .ok ()
  else
    match topology.bind fun t => t.incomingLinks addr with
    | some 1 => .ok ()
    | some _ => .error (.editUnsupported ("editing a group relocates its object header; " ++
        "only supported when it has a single hard link"))
    | none => .error (.editUnsupported ("editing a group relocates its object header, and this " ++
        "file's links could not be walked to establish that nothing else names it"))

def prepareHeader (key : ObjectPath) (node : Node) : Except Error Node :=
  if node.isNew then .ok { node with region := [] }
  else do
    let addr ← file.resolve key
    requireEditable topology key addr
    let region ← file.inspectGroup addr
    .ok { node with region := region, replaces := some addr }

def prepareGroupHeaders : List (ObjectPath × Node) → Except Error (List (ObjectPath × Node))
  | [] => .ok []
  | (key, node) :: rest => do
    let node ← prepareHeader file topology key node
    let rest ← prepareGroupHeaders rest
    .ok ((key, node) :: rest)

end

/-- The edit of a link to a dirty child group. -/
inductive ChildLink where
  | insert (path : ObjectPath) (leaf : String)
  | replace (path : ObjectPath) (leaf : String)
deriving DecidableEq, Repr

def childLinks (groups : List (ObjectPath × Node)) (parent : ObjectPath) : List ChildLink :=
  groups.filterMap fun group =>
    match group.1.splitLeaf with
    | none => none
    | some (above, leaf) =>
      if above = parent then
        some (if group.2.isNew then .insert group.1 leaf else .replace group.1 leaf)
      else none

/-- The datasets to create in `parent`, those with references last. -/
def datasetsOf (staged : StagedEdits) (parent : ObjectPath) : List String :=
  let datasets := (staged.datasets.filter fun d => decide (d.1 = parent)).map Prod.snd
  ((datasets.filter fun d => !d.references) ++ datasets.filter fun d => d.references).map
    FlatDataset.name

def insertNames : List String → List String → Except Error Unit
  | _, [] => .ok ()
  | names, name :: rest =>
    if name ∈ names then
      .error (.editUnsupported "a link with this name already exists in the target group")
    else insertNames (name :: names) rest

def addedNames (staged : StagedEdits) (groups : List (ObjectPath × Node)) (key : ObjectPath) :
    List String :=
  datasetsOf staged key ++ (childLinks groups key).filterMap fun child =>
    match child with
    | .insert _ leaf => some leaf
    | .replace _ _ => none

def checkAdditions (staged : StagedEdits) (groups : List (ObjectPath × Node))
    (group : ObjectPath × Node) : Except Error Unit :=
  insertNames ((group.2.region.map LinkRecord.name).filter fun name =>
    !(group.2.deletes.map PlannedDeletion.name).contains name) (addedNames staged groups group.1)

def checkGroupAdditions (staged : StagedEdits) (groups : List (ObjectPath × Node)) :
    List (ObjectPath × Node) → Except Error Unit
  | [] => .ok ()
  | group :: rest => do
    checkAdditions staged groups group
    checkGroupAdditions staged groups rest

/-! ## Plans -/

/-- The groups to place, in path order, and the moving writes among them. -/
structure PreparedTree where
  groups : List (ObjectPath × Node)
  staged : StagedEdits

inductive CommitPlan where
  | inPlace
  | tree (tree : PreparedTree)

def PreparedTree.order (tree : PreparedTree) : List (ObjectPath × Node) :=
  tree.groups.insertionSort fun a b => b.1.length ≤ a.1.length

def PreparedTree.superseded (tree : PreparedTree) : List (ObjectPath × ObjectId) :=
  tree.groups.filterMap fun group => group.2.replaces.map fun addr => (group.1, addr)

/-- The headers whose storage `prepare_reclamation` collects: the replaced groups and the sources of
moving writes. -/
def PreparedTree.reclaimed (tree : PreparedTree) : List ObjectId :=
  tree.superseded.map Prod.snd ++
    tree.groups.flatMap fun group => group.2.writes.map RelocatedDataset.source

def planCommit (file : File) (staged : StagedEdits) : Except Error CommitPlan := do
  let topology := file.topology
  let edits ← prepareDatasetEdits file topology staged
  if edits.movingWrites.isEmpty && staged.onlyDatasets then .ok .inPlace
  else do
    let nodes ← planDirtyGroups file topology staged edits
    let groups ← prepareGroupHeaders file topology nodes.entries
    checkGroupAdditions staged groups groups
    .ok (.tree ⟨groups, staged⟩)

end Hdf5Pure.Edit
