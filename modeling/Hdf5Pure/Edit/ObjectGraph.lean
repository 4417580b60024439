import Hdf5Pure.Utils.OrdMap
import Hdf5Pure.Edit.Error

/-!
# Discovery of the object graph

`ObjectGraph::discover_indexed` (`src/object_graph.rs`): the objects reachable from a root through
hard links, each expanded once in the order the walk first reaches it, under a budget of objects
and links. An object is identified by the address of its header. The expansion callback of the
source mutates captured state, which is passed explicitly here.
-/

namespace Hdf5Pure.Edit

abbrev ObjectId := ℕ

/-- The position of an object in a graph. The root has position 0. -/
abbrev ObjectIndex := ℕ

structure HardLink (L Target : Type) where
  label : L
  target : Target
deriving DecidableEq, Repr

/-- The value of an object and its links, as an expansion returns them. -/
structure Expansion (T L : Type) where
  value : T
  links : List (HardLink L ObjectId)

/-- An object of a graph, with links to positions of the graph. -/
structure GraphObject (T L : Type) where
  value : T
  links : List (HardLink L ObjectIndex)

/-- The objects at their positions. -/
structure ObjectGraph (T L : Type) where
  objects : List (GraphObject T L)

/-- The position of a link: its owner, and its position among the links of the owner. -/
structure LinkIndex where
  object : ObjectIndex
  position : ℕ
deriving DecidableEq, Repr

/-- A budget of objects and hard links. -/
structure TraversalBudget where
  objects : ℕ
  links : ℕ

/-- The walk: the index of each object it has reached, these in order, and the expansions of the
first. -/
structure Worklist (T L : Type) where
  indices : OrdMap ObjectId ObjectIndex
  admitted : List ObjectId
  expanded : List (GraphObject T L)
  objectLimit : ℕ

variable {T L σ ε : Type}

namespace Worklist

def new (objectLimit : ℕ) : Worklist T L := ⟨.empty, [], [], objectLimit⟩

/-- `admit`: returns the index of `id`, taking it in as the last object to expand if it is new. -/
def admitObject (w : Worklist T L) (id : ObjectId) :
    Except (TraversalError ε) (ObjectIndex × Worklist T L) :=
  match w.indices.get? id with
  | some index => .ok (index, w)
  | none =>
    if w.objectLimit ≤ w.indices.entries.length then
      .error (.limitExceeded .objects w.objectLimit)
    else
      .ok (w.admitted.length, { w with
        indices := w.indices.insert id w.admitted.length
        admitted := w.admitted ++ [id] })

def admitLinks (w : Worklist T L) :
    List (HardLink L ObjectId) → Except (TraversalError ε) (List (HardLink L ObjectIndex) × Worklist T L)
  | [] => .ok ([], w)
  | link :: links => do
    let (index, w) ← w.admitObject link.target
    let (links, w) ← w.admitLinks links
    .ok (⟨link.label, index⟩ :: links, w)

def next (w : Worklist T L) : Option ObjectId := w.admitted[w.expanded.length]?

end Worklist

/-- The walk, the number of links so far, and the state the expansions pass on. -/
structure Discovery (T L σ : Type) where
  worklist : Worklist T L
  linkCount : ℕ
  state : σ

namespace ObjectGraph

def discoverStep (budget : TraversalBudget)
    (expand : ObjectId → σ → Except ε (Expansion T L × σ)) (id : ObjectId) (d : Discovery T L σ) :
    Except (TraversalError ε) (Discovery T L σ) :=
  match expand id d.state with
  | .error e => .error (.expand e)
  | .ok (expansion, state) =>
    let linkCount := d.linkCount + expansion.links.length
    if 2 ^ 64 ≤ linkCount ∨ budget.links < linkCount then
      .error (.limitExceeded .links budget.links)
    else do
      let (links, worklist) ← d.worklist.admitLinks expansion.links
      .ok ⟨{ worklist with expanded := worklist.expanded ++ [⟨expansion.value, links⟩] },
        linkCount, state⟩

/-- The loop. Every iteration expands one of at most `budget.objects` admitted objects. -/
def discoverLoop (budget : TraversalBudget) (expand : ObjectId → σ → Except ε (Expansion T L × σ)) :
    ℕ → Discovery T L σ → Except (TraversalError ε) (Discovery T L σ)
  | 0, d => .ok d
  | fuel + 1, d =>
    match d.worklist.next with
    | none => .ok d
    | some id => do
      let d ← discoverStep budget expand id d
      discoverLoop budget expand fuel d

def discoverIndexed (budget : TraversalBudget) (root : ObjectId)
    (expand : ObjectId → σ → Except ε (Expansion T L × σ)) (state : σ) :
    Except (TraversalError ε) (ObjectGraph T L × OrdMap ObjectId ObjectIndex × σ) := do
  let (_, worklist) ← (Worklist.new budget.objects : Worklist T L).admitObject root
  let d ← discoverLoop budget expand budget.objects ⟨worklist, 0, state⟩
  .ok (⟨d.worklist.expanded⟩, d.worklist.indices, d.state)

end ObjectGraph

end Hdf5Pure.Edit
