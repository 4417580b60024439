import Hdf5Pure.Space.Admission
import Hdf5Pure.Utils.OrdMap

/-!
# Threshold admission of PAGE returns

`PagedPostFree` of `crates/hdf5-pure-space/src/paged/mod.rs` and the admission worklist of
`paged/admission.rs`. A return shorter than the threshold joins the list of its class only where
it touches tracked space inside a page or, from one page on, at a page boundary. Each admission
can make its neighbours eligible, so that the undecided returns at both ends of the grown run are
queued again.
-/

namespace Hdf5Pure.Space

open Checked

def FreeList.adjoinsWithin (list : FreeList) (extent : Extent) (unit : ℕ) : Bool :=
  list.regions.any fun region => region.adjoinsWithin extent unit

/-- A region of at least one unit adjoins `extent` at a multiple of the unit. -/
def FreeList.adjoinsWholeUnit (list : FreeList) (extent : Extent) (unit : ℕ) : Bool :=
  list.regions.any fun region => region.adjoinsWholeUnit extent unit

/-! ## Class indexes -/

/-- The extents of one admission class by their start addresses. -/
structure ClassIndex where
  regions : OrdMap ℕ Extent

namespace ClassIndex

def new (list : FreeList) : ClassIndex := ⟨.collect (list.regions.map fun e => (e.start, e))⟩

/-- Removes the region before `extent` if they touch. Returns where the union starts. -/
def joinPrevious (index : ClassIndex) (extent : Extent) : Checked (ℕ × ClassIndex) :=
  match index.regions.lastBelow extent.start with
  | none => .ok (extent.start, index)
  | some (address, previous) => do
    assert (decide (previous.stop ≤ extent.start)) "returned allocation overlaps tracked space"
    if previous.stop = extent.start then .ok (previous.start, ⟨index.regions.remove address⟩)
    else .ok (extent.start, index)

/-- Removes the region at or after `start` if it touches the end of `extent`. Returns where the
union ends. -/
def joinNext (index : ClassIndex) (start : ℕ) (extent : Extent) : Checked (ℕ × ClassIndex) :=
  match index.regions.firstFrom start with
  | none => .ok (extent.stop, index)
  | some (address, next) => do
    assert (decide (extent.stop ≤ next.start)) "returned allocation overlaps tracked space"
    if extent.stop = next.start then .ok (next.stop, ⟨index.regions.remove address⟩)
    else .ok (extent.stop, index)

/-- Inserts an extent and coalesces its neighbours. Returns the complete run. -/
def insert (index : ClassIndex) (extent : Extent) : Checked (Extent × ClassIndex) := do
  let (start, index) ← index.joinPrevious extent
  let (stop, index) ← index.joinNext start extent
  let run ← expect (Extent.between start stop) "adjacent extents have a nonempty union"
  .ok (run, ⟨index.regions.insert start run⟩)

/-- Within-page or whole-unit adjacency for this class. -/
def merges (index : ClassIndex) (extent : Extent) (pageSize : FileSpacePageSize) : Bool :=
  let left := (index.regions.lastBelow extent.start).map Prod.snd
  let right := index.regions.get? extent.stop
  (left.toList ++ right.toList).any fun region =>
    if extent.len < pageSize.get then region.adjoinsWithin extent pageSize.get
    else region.adjoinsWholeUnit extent pageSize.get

def intoList (index : ClassIndex) : Checked FreeList := do
  match ← FreeList.fromSorted index.regions.values with
  | .ok list => .ok list
  | .error _ => .error ⟨"indexed free extents are sorted and disjoint"⟩

end ClassIndex

/-! ## The worklist -/

/-- Whether a return is indexed, awaiting a decision, or scheduled for examination. -/
inductive AdmissionState where
  | admitted
  | pending
  | queued
deriving DecidableEq, Repr

/-- An original allocation and class with its current admission decision. -/
structure PendingReturn where
  extent : Extent
  freeClass : FreeClass
  state : AdmissionState
deriving DecidableEq, Repr

/-- Class indexes and decisions of one PAGE admission batch. The indexes stand at their classes, not
at the positions of `ClassIndex::slot`. -/
structure PageAdmission where
  pageSize : FileSpacePageSize
  classes : FreeClass → ClassIndex
  unclassified : FreeList
  returned : List PendingReturn
  queue : List ℕ

/-- The PAGE free lists of a commit under construction. -/
structure PagedPostFree where
  pageSize : FileSpacePageSize
  metadata : FreeList
  raw : FreeList
  dead : FreeList
  unclassified : FreeList
deriving DecidableEq, Repr

def PagedPostFree.list (post : PagedPostFree) : FreeClass → FreeList
  | .page .metadata => post.metadata
  | .page .raw => post.raw
  | .dead => post.dead

namespace PageAdmission

/-- Admits eligible originals and schedules shorter returns, in address order. -/
def admitEligible (threshold : ℕ) (admission : PageAdmission) : Returns → Checked PageAdmission
  | [] => .ok admission
  | (extent, freeClass) :: rest =>
    if threshold ≤ extent.len then do
      let (_, index) ← (admission.classes freeClass).insert extent
      admitEligible threshold { admission with
        classes := Function.update admission.classes freeClass index
        returned := admission.returned ++ [⟨extent, freeClass, .admitted⟩] } rest
    else
      admitEligible threshold { admission with
        returned := admission.returned ++ [⟨extent, freeClass, .queued⟩]
        queue := admission.queue ++ [admission.returned.length] } rest

def indexed (post : PagedPostFree) : PageAdmission :=
  ⟨post.pageSize, fun c => ClassIndex.new (post.list c), post.unclassified, [], []⟩

/-- Builds class indexes, admits eligible originals, and schedules shorter returns. -/
def new (post : PagedPostFree) (threshold : ℕ) (returned : Returns) : Checked PageAdmission :=
  admitEligible threshold (indexed post) returned

def merges (admission : PageAdmission) (extent : Extent) : Bool :=
  (decide (admission.pageSize.get ≤ extent.len) && admission.unclassified.adjoins extent)
    || [.page .metadata, .page .raw, .dead].any fun freeClass =>
      (admission.classes freeClass).merges extent admission.pageSize

/-- Records a decision on the return at `index`. -/
def setState (admission : PageAdmission) (index : ℕ) (state : AdmissionState) : PageAdmission :=
  { admission with
    returned := admission.returned.modify index fun entry => { entry with state := state } }

/-- Schedules the undecided return at `neighbor` again. -/
def requeue (admission : PageAdmission) (neighbor : Option ℕ) : PageAdmission :=
  match neighbor with
  | none => admission
  | some index =>
    if admission.returned[index]?.any fun entry => entry.state == .pending then
      { admission.setState index .queued with queue := admission.queue ++ [index] }
    else admission

/-- One iteration of the loop over the queue, at the return it pops. -/
def visit (admission : PageAdmission) (index : ℕ) : Checked PageAdmission := do
  let entry ← expect admission.returned[index]? "index out of bounds"
  assert (entry.state == .queued)
    "assertion failed: returned[index].state == AdmissionState::Queued"
  if !admission.merges entry.extent then .ok (admission.setState index .pending)
  else do
    let (run, classIndex) ← (admission.classes entry.freeClass).insert entry.extent
    let admission := { admission.setState index .admitted with
      classes := Function.update admission.classes entry.freeClass classIndex }
    -- the searches run over the sorted originals, whose endpoints are distinct
    let left := admission.returned.findIdx? fun entry => entry.extent.stop == run.start
    let right := admission.returned.findIdx? fun entry => entry.extent.start == run.stop
    .ok ((admission.requeue left).requeue right)

/-- The loop over the queue. Every return is admitted at most once and queues at most two, so four
times their number is enough fuel. -/
def resolve : ℕ → PageAdmission → Checked PageAdmission
  | 0, admission =>
    if admission.queue.isEmpty then .ok admission else .error ⟨"the queue is not empty"⟩
  | fuel + 1, admission =>
    match admission.queue with
    | [] => .ok admission
    | index :: queue => do
      let admission ← visit { admission with queue := queue } index
      resolve fuel admission

def droppedReturns (admission : PageAdmission) : Returns :=
  (admission.returned.filter fun entry => entry.state == .pending).map
    fun entry => (entry.extent, entry.freeClass)

/-- Resolves the queue. Returns the metadata, raw and dead lists and the dropped allocations. -/
def run (admission : PageAdmission) : Checked ((FreeList × FreeList × FreeList) × Returns) := do
  let admission ← resolve (4 * admission.returned.length) admission
  let metadata ← (admission.classes (.page .metadata)).intoList
  let raw ← (admission.classes (.page .raw)).intoList
  let dead ← (admission.classes .dead).intoList
  .ok ((metadata, raw, dead), admission.droppedReturns)

end PageAdmission

/-! ## Release into PAGE lists -/

namespace PagedPostFree

/-- The extent merges into tracked space under the PAGE adjacency rules. -/
def merges (post : PagedPostFree) (extent : Extent) : Bool :=
  let typed := [post.metadata, post.raw, post.dead]
  if extent.len < post.pageSize.get then
    typed.any fun list => list.adjoinsWithin extent post.pageSize.get
  else (typed.any fun list => list.adjoinsWholeUnit extent post.pageSize.get)
    || post.unclassified.adjoins extent

def track (post : PagedPostFree) (extent : Extent) : FreeClass → Checked PagedPostFree
  | .dead => do
    let dead ← post.dead.free extent
    .ok { post with dead := dead }
  | .page .metadata => do
    let metadata ← post.metadata.free extent
    .ok { post with metadata := metadata }
  | .page .raw => do
    let raw ← post.raw.free extent
    .ok { post with raw := raw }

instance : TrackedSpace PagedPostFree FreeClass where
  merges := merges
  track := track

/-- Tracks `extent` if it is at least `threshold` bytes long or merges into tracked space. -/
def release (post : PagedPostFree) (threshold : ℕ) (extent : Extent) (freeClass : FreeClass) :
    Checked (Release × PagedPostFree) :=
  TrackedSpace.release post threshold extent freeClass

/-- Admits original returns and rebuilds each class in bulk. Returns the dropped allocations. -/
def releaseBatch (post : PagedPostFree) (threshold : ℕ) (extents : Returns) :
    Checked (Returns × PagedPostFree) :=
  match extents with
  | [] => .ok ([], post)
  | [first] => do
    let (release, post) ← post.release threshold first.1 first.2
    .ok (if release = .drop then [first] else [], post)
  | extents =>
    match orderedReturns extents with
    | .error _ => .error ⟨"returned allocations do not overlap"⟩
    | .ok returned => do
      let admission ← PageAdmission.new post threshold returned
      let ((metadata, raw, dead), dropped) ← admission.run
      .ok (dropped, { post with metadata := metadata, raw := raw, dead := dead })

/-- The pages at both ends of the admitted fragments shorter than one page, in address order. -/
def candidatePages (post : PagedPostFree) (extents dropped : Returns) : List Extent :=
  let pageSize := post.pageSize.get
  let fragments := (extents.map Prod.fst).filter fun extent =>
    (decide (1 ≤ extent.len ∧ extent.len < pageSize))
      && !(dropped.map Prod.fst).contains extent
  let pages := (fragments.flatMap fun extent => [extent.start, extent.stop - 1]).filterMap
    fun address => Extent.new (address / pageSize * pageSize) pageSize
  (OrdMap.collect (pages.map fun page => (page.start, page))).values

def completedPages (runs : List Extent) : List Extent → List Extent
  | [] => []
  | page :: rest =>
    let runs := runs.dropWhile fun run => run.stop ≤ page.start
    if runs.head?.any fun run => decide (run.start ≤ page.start ∧ page.stop ≤ run.stop) then
      page :: completedPages runs rest
    else completedPages runs rest

/-- Candidate pages wholly covered by metadata, raw, and dead regions. -/
def pagesCompletedByMerges (post : PagedPostFree) (extents dropped : Returns) :
    Checked (List Extent) := do
  match ← FreeList.fromLists [post.metadata, post.raw, post.dead] with
  | .error _ => .error ⟨"PAGE classes have disjoint free extents"⟩
  | .ok runs => .ok (completedPages runs.regions (post.candidatePages extents dropped))

def releasePages (post : PagedPostFree) (threshold : ℕ) (pages : List Extent) :
    Checked (Returns × PagedPostFree) := do
  match ← FreeList.fromSorted pages with
  | .error _ => .error ⟨"completed pages are sorted and disjoint"⟩
  | .ok removed => do
    let metadata ← post.metadata.takeRanges removed
    let raw ← post.raw.takeRanges removed
    let dead ← post.dead.takeRanges removed
    releaseBatch { post with metadata := metadata, raw := raw, dead := dead } threshold
      (pages.map (·, .page .raw))

/-- The start of the run of dropped extents that reaches `start`, and the class of its lowest. The
extents descend. -/
def droppedRun (start : ℕ) (head : Option FreeClass) : Returns → ℕ × Option FreeClass
  | [] => (start, head)
  | (extent, freeClass) :: rest =>
    if extent.stop ≠ start then (start, head) else droppedRun extent.start (some freeClass) rest

/-- Lowers the end of allocation over dropped extents of a page or more, keeping a partial first
page. -/
def giveBack (post : PagedPostFree) (eoa : ℕ) (dropped : Returns) : Checked (ℕ × PagedPostFree) :=
  let pageSize := post.pageSize.get
  let dropped := (dropped.filter fun entry => decide (pageSize ≤ entry.1.len)).mergeSort
    fun a b => decide (b.1.start ≤ a.1.start)
  let (start, head) := droppedRun eoa none dropped
  match checkedNextMultipleOf start pageSize with
  | none => .ok (eoa, post)
  | some aligned =>
    match head.filter fun _ => start != aligned with
    | none => .ok (aligned, post)
    | some freeClass => do
      let head ← expect (Extent.between start aligned) "page alignment leaves a non-empty prefix"
      let post ← post.track head freeClass
      .ok (aligned, post)

/-- Admits original returns, reconsiders completed pages, and releases dropped tails. -/
def releaseAll (post : PagedPostFree) (threshold eoa : ℕ) (extents : Returns) :
    Checked (ℕ × PagedPostFree) := do
  let (dropped, post) ← post.releaseBatch threshold extents
  if post.pageSize.get < threshold then do
    let completed ← post.pagesCompletedByMerges extents dropped
    let (more, post) ← post.releasePages threshold completed
    post.giveBack eoa (dropped ++ more)
  else post.giveBack eoa dropped

end PagedPostFree

end Hdf5Pure.Space
