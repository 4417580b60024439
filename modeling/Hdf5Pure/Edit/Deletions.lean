import Hdf5Pure.Edit.Topology

/-!
# Planned deletions and the storage they free

`PlannedDeletion`, `RemovedLinks` (`src/edit/analysis/deletions.rs`) and the walk of
`WriteEngine::collect_free_spans` (`src/edit/reclaim.rs`). The allocations of one object are the
parameter `storage`, which is `none` for an object the session cannot account for.
-/

namespace Hdf5Pure.Edit

/-! ## Planned deletions -/

/-- The edge of a topology a deletion removes, or only its target. -/
inductive DeletionTarget where
  | complete (topology : ℕ) (edge : LinkIndex) (object : ObjectId)
  | unresolved (object : ObjectId)
deriving DecidableEq, Repr

/-- A deletion: the name of the removed link and its target. -/
structure PlannedDeletion where
  name : String
  target : DeletionTarget
deriving DecidableEq, Repr

def CompleteTopology.deletion (t : CompleteTopology) (path : ObjectPath) :
    Option PlannedDeletion := do
  let (_, name) ← path.splitLeaf
  let (edge, object) ← t.findLink path
  some ⟨name, .complete t.identity edge object⟩

/-! ## Removed links -/

/-- The edges removed from a topology, each once, and the targets known without an edge. -/
structure RemovedLinks where
  topology : Option CompleteTopology
  edges : List (LinkIndex × ObjectId)
  unresolved : List ObjectId

namespace RemovedLinks

def edgeOrder (a b : LinkIndex × ObjectId) : Prop :=
  toLex (a.1.object, a.1.position) ≤ toLex (b.1.object, b.1.position)

instance : DecidableRel edgeOrder := fun a b =>
  inferInstanceAs (Decidable (toLex (a.1.object, a.1.position) ≤ toLex (b.1.object, b.1.position)))

def distinctEdges (edges : List (LinkIndex × ObjectId)) : List (LinkIndex × ObjectId) :=
  (edges.insertionSort edgeOrder).destutter fun a b => a.1 ≠ b.1

/-- The loop of `bind`, which checks that each edge belongs to the topology. -/
def bindEach (topology : Option CompleteTopology) :
    List PlannedDeletion → RemovedLinks → Except FormatError RemovedLinks
  | [], removed => .ok removed
  | deletion :: deletions, removed =>
    match deletion.target with
    | .complete identity edge object =>
      if topology.any fun t => decide (identity = t.identity) then
        bindEach topology deletions { removed with edges := removed.edges ++ [(edge, object)] }
      else .error (.internal "a removed link belongs to another analysis topology")
    | .unresolved object =>
      bindEach topology deletions { removed with unresolved := removed.unresolved ++ [object] }

def bind (topology : Option CompleteTopology) (deletions : List PlannedDeletion) :
    Except FormatError RemovedLinks :=
  match bindEach topology deletions ⟨topology, [], []⟩ with
  | .error e => .error e
  | .ok removed => .ok { removed with edges := distinctEdges removed.edges }

end RemovedLinks

/-! ## The walk -/

/-- What the session recognises an object as. -/
inductive ObjectStorageKind where
  | dataset
  | group
deriving DecidableEq, Repr

def maxLinkWalkDepth : ℕ := 1000

section

variable {Span : Type} (storage : ObjectId → Option (List Span × ObjectStorageKind))

namespace CompleteTopology

/-- The walk with `remaining` levels left before `maxLinkWalkDepth`. -/
def collectFreeSpansWithin (t : CompleteTopology) : ℕ → ObjectId → List Span → List Span
  | 0, _, out => out
  | remaining + 1, addr, out =>
    if t.incomingLinks addr ≠ some 1 then out
    else
      match storage addr with
      | none => out
      | some (spans, .dataset) => out ++ spans
      | some (spans, .group) =>
        (t.children addr).foldl (fun out child => collectFreeSpansWithin t remaining child out)
          (out ++ spans)

def collectFreeSpans (t : CompleteTopology) (addr : ObjectId) (depth : ℕ) (out : List Span) :
    List Span :=
  t.collectFreeSpansWithin storage (maxLinkWalkDepth - depth) addr out

end CompleteTopology

namespace RemovedLinks

def targets (removed : RemovedLinks) : List ObjectId :=
  ((removed.edges.map Prod.snd ++ removed.unresolved).insertionSort (· ≤ ·)).destutter (· ≠ ·)

/-- `RemovedLinks::collect_free_spans`: appends the spans and returns the targets. -/
def collectFreeSpans (removed : RemovedLinks) (out : List Span) : List Span × List ObjectId :=
  match removed.topology with
  | none => (out, removed.targets)
  | some t =>
    (removed.targets.foldl (fun out target => t.collectFreeSpans storage target 0 out) out,
      removed.targets)

end RemovedLinks

end

end Hdf5Pure.Edit
