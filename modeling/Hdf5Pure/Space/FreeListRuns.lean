import Hdf5Pure.Space.AdmissionTheorems
import Hdf5Pure.Utils.Runs

/-!
# Runs of free-list operations

A store of numbered lists and the operations of `FreeList` on it. Over any run within the contracts
no assertion fails, every list stays canonical, and each operation has its meaning on free bytes.
-/

namespace Hdf5Pure.Space

open Checked

abbrev Lists := ℕ → FreeList

/-- An operation on the lists of a store. `dst` is the list it changes or defines. -/
inductive FreeListOp where
  | fromSorted (dst : ℕ) (extents : List Extent)
  | fromLists (dst : ℕ) (sources : List ℕ)
  | free (dst : ℕ) (extent : Extent)
  | alloc (dst len : ℕ)
  | allocBlock (dst : ℕ) (request : ReservationRequest) (pageSize : FileSpacePageSize)
  | allocWholeUnits (dst len align : ℕ)
  | allocBelow (dst len limit : ℕ)
  | takeRange (dst : ℕ) (extent : Extent)
  | takeRanges (dst ranges : ℕ)
  | takeTrailing (dst eof : ℕ)
  | releaseAll (dst threshold eoa : ℕ) (extents : List Extent)
  | releaseTrailingRun (dst eoa tailLen : ℕ)
  | intersection (dst left right : ℕ)

/-- What an operation returns beside the list. -/
inductive FreeListResult where
  | done
  | refused (error : FreeListError)
  | extent (result : Option Extent)
  | address (result : Option ℕ)

variable {lists : Lists}

namespace FreeListOp

/-- Stores a constructed list, or reports why there is none. -/
def build (lists : Lists) (dst : ℕ) (result : Except FreeListError FreeList) :
    FreeListResult × Lists :=
  match result with
  | .ok list => (.done, Function.update lists dst list)
  | .error error => (.refused error, lists)

def step (lists : Lists) : FreeListOp → Checked (FreeListResult × Lists)
  | fromSorted dst extents => do
    let result ← FreeList.fromSorted extents
    .ok (build lists dst result)
  | fromLists dst sources => do
    let result ← FreeList.fromLists (sources.map lists)
    .ok (build lists dst result)
  | free dst extent => do
    let list ← (lists dst).free extent
    .ok (.done, Function.update lists dst list)
  | alloc dst len => do
    let (result, list) ← (lists dst).alloc len
    .ok (.extent result, Function.update lists dst list)
  | allocBlock dst request pageSize => do
    let (result, list) ← (lists dst).allocBlock request pageSize
    .ok (.extent result, Function.update lists dst list)
  | allocWholeUnits dst len align => do
    let (result, list) ← (lists dst).allocWholeUnits len align
    .ok (.extent result, Function.update lists dst list)
  | allocBelow dst len limit => do
    let (result, list) ← (lists dst).allocBelow len limit
    .ok (.extent result, Function.update lists dst list)
  | takeRange dst extent => do
    let list ← (lists dst).takeRange extent
    .ok (.done, Function.update lists dst list)
  | takeRanges dst ranges => do
    let list ← (lists dst).takeRanges (lists ranges)
    .ok (.done, Function.update lists dst list)
  | takeTrailing dst eof => do
    let (start, list) ← (lists dst).takeTrailing eof
    .ok (.address start, Function.update lists dst list)
  | releaseAll dst threshold eoa extents => do
    let (eoa, list) ← (lists dst).releaseAll threshold eoa extents
    .ok (.address (some eoa), Function.update lists dst list)
  | releaseTrailingRun dst eoa tailLen => do
    let (eoa, list) ← (lists dst).releaseTrailingRun eoa tailLen
    .ok (.address (some eoa), Function.update lists dst list)
  | intersection dst left right => do
    let list ← (lists left).intersection (lists right)
    .ok (.done, Function.update lists dst list)

/-- What is freed or returned is not free yet and not returned twice, and whole units are asked for
in whole units. -/
def Contract (lists : Lists) : FreeListOp → Prop
  | free dst extent => Disjoint (lists dst).bytes extent.bytes
  | allocWholeUnits _ len align => align ∣ len
  | releaseAll dst _ _ extents =>
    (extents.Pairwise fun a b => Disjoint a.bytes b.bytes) ∧
      ∀ e ∈ extents, Disjoint (lists dst).bytes e.bytes
  | _ => True

/-- The meaning of an operation on sets of free bytes, with its `result` and the `list` it leaves.
-/
def Effect (lists : Lists) (op : FreeListOp) (result : FreeListResult) (list : FreeList) : Prop :=
  match op, result with
  | fromSorted _ extents, .done => AscendingExtents extents ∧ list.bytes = covered extents
  | fromSorted dst extents, .refused _ => ¬ AscendingExtents extents ∧ list = lists dst
  | fromLists _ sources, .done =>
    ((sources.map lists).Pairwise fun a b => Disjoint a.bytes b.bytes) ∧
      list.bytes = FreeList.unionBytes (sources.map lists)
  | fromLists dst sources, .refused error =>
    ¬ ((sources.map lists).Pairwise fun a b => Disjoint a.bytes b.bytes) ∧
      (∃ previous next, error = .overlap previous next ∧ next.start < previous.stop) ∧
      list = lists dst
  | free dst extent, .done => list.bytes = (lists dst).bytes ∪ extent.bytes
  | alloc dst len, .extent result => (lists dst).Allocates len result list
  | allocBlock dst request _, .extent result => (lists dst).Allocates request.size result list
  | allocWholeUnits dst len _, .extent result => (lists dst).Allocates len result list
  | allocBelow dst len limit, .extent result =>
    (lists dst).Allocates len result list ∧ ∀ a, result = some a → a.stop ≤ limit
  | takeRange dst extent, .done => list.bytes = (lists dst).bytes \ extent.bytes
  | takeRanges dst ranges, .done => list.bytes = (lists dst).bytes \ (lists ranges).bytes
  | takeTrailing dst eof, .address (some start) =>
    start < eof ∧ Set.Ico start eof ⊆ (lists dst).bytes ∧
      list.bytes = (lists dst).bytes \ Set.Ico start eof
  | takeTrailing dst eof, .address none =>
    list = lists dst ∧ ∀ r ∈ (lists dst).regions.getLast?, r.stop ≠ eof
  | releaseAll dst threshold eoa extents, .address (some eoa') =>
    ∃ dropped, (lists dst).Admits threshold extents dropped list ∧ eoa' ≤ eoa ∧
      Set.Ico eoa' eoa ⊆ covered dropped
  | releaseTrailingRun dst eoa _, .address (some eoa') =>
    eoa' ≤ eoa ∧ Set.Ico eoa' eoa ⊆ (lists dst).bytes ∧
      list.bytes = (lists dst).bytes \ Set.Ico eoa' eoa
  | intersection _ left right, .done => list.bytes = (lists left).bytes ∩ (lists right).bytes
  | _, _ => False

def dst : FreeListOp → ℕ
  | fromSorted dst _ | fromLists dst _ | free dst _ | alloc dst _ | allocBlock dst _ _
  | allocWholeUnits dst _ _ | allocBelow dst _ _ | takeRange dst _ | takeRanges dst _
  | takeTrailing dst _ | releaseAll dst _ _ _ | releaseTrailingRun dst _ _
  | intersection dst _ _ => dst

/-- The effect of an operation on the store: its meaning at the destination, and every other list
is unchanged. -/
def StoreEffect (lists : Lists) (op : FreeListOp) (result : FreeListResult) (lists' : Lists) :
    Prop :=
  Effect lists op result (lists' op.dst) ∧ ∀ i, i ≠ op.dst → lists' i = lists i

/-- Storing a canonical list with the right meaning completes a step. -/
lemma store_update (hl : ∀ i, (lists i).Canonical) {op : FreeListOp} {result : FreeListResult}
    {list : FreeList} (hcan : list.Canonical) (heff : Effect lists op result list) :
    (∀ i, (Function.update lists op.dst list i).Canonical) ∧
      StoreEffect lists op result (Function.update lists op.dst list) := by
  refine ⟨fun i => ?_, ?_, fun i hi => Function.update_of_ne hi _ _⟩
  · by_cases hi : i = op.dst
    · rw [hi, Function.update_self]
      exact hcan
    · rw [Function.update_of_ne hi]
      exact hl i
  · rwa [Function.update_self]

lemma build_spec (hl : ∀ i, (lists i).Canonical) (op : FreeListOp)
    {result : Except FreeListError FreeList}
    (hok : ∀ l, result = .ok l → l.Canonical ∧ Effect lists op .done l)
    (herr : ∀ e, result = .error e → Effect lists op (.refused e) (lists op.dst)) :
    ∃ r lists', build lists op.dst result = (r, lists') ∧ (∀ i, (lists' i).Canonical) ∧
      StoreEffect lists op r lists' := by
  cases result with
  | ok l => exact ⟨_, _, rfl, store_update hl (hok l rfl).1 (hok l rfl).2⟩
  | error e => exact ⟨_, _, rfl, hl, herr e rfl, fun _ _ => rfl⟩

lemma step_spec (lists : Lists) (op : FreeListOp) (hl : ∀ i, (lists i).Canonical)
    (h : Contract lists op) :
    ∃ result lists', step lists op = .ok (result, lists') ∧ (∀ i, (lists' i).Canonical) ∧
      StoreEffect lists op result lists' := by
  cases op with
  | fromSorted dst extents =>
    obtain ⟨result, hr, hok, herr⟩ := FreeList.fromSorted_spec extents
    obtain ⟨r, lists', hb, hspec⟩ := build_spec hl (.fromSorted dst extents)
      (fun l h => ⟨(hok l h).2.1, (hok l h).1, (hok l h).2.2⟩) (fun e h => ⟨herr e h, rfl⟩)
    exact ⟨r, lists', by simp only [step, hr, ok_bind, ← hb]; rfl, hspec⟩
  | fromLists dst sources =>
    have hsources : ∀ l ∈ sources.map lists, l.Canonical := by simpa using fun i _ => hl i
    obtain ⟨result, hr, hok, herr⟩ := FreeList.fromLists_spec hsources
    obtain ⟨r, lists', hb, hspec⟩ := build_spec hl (.fromLists dst sources)
      (fun l h => ⟨(hok l h).2.1, (hok l h).1, (hok l h).2.2⟩)
      (fun e h => ⟨(herr e h).1, (herr e h).2, rfl⟩)
    exact ⟨r, lists', by simp only [step, hr, ok_bind, ← hb]; rfl, hspec⟩
  | free dst extent =>
    obtain ⟨l, hr, hcan, heff⟩ := FreeList.free_spec (hl dst) h
    exact ⟨.done, _, by simp only [step, hr, ok_bind]; rfl,
      store_update hl hcan heff⟩
  | alloc dst len =>
    obtain ⟨result, l, hr, hcan, heff, -⟩ := FreeList.alloc_spec (hl dst) len
    exact ⟨.extent result, _, by simp only [step, hr, ok_bind]; rfl,
      store_update hl hcan heff⟩
  | allocBlock dst request pageSize =>
    obtain ⟨result, l, hr, hcan, heff, -⟩ := FreeList.allocBlock_spec (hl dst) request pageSize
    exact ⟨.extent result, _, by simp only [step, hr, ok_bind]; rfl,
      store_update hl hcan heff⟩
  | allocWholeUnits dst len align =>
    obtain ⟨result, l, hr, hcan, heff, -⟩ := FreeList.allocWholeUnits_spec (hl dst) h
    exact ⟨.extent result, _, by simp only [step, hr, ok_bind]; rfl,
      store_update hl hcan heff⟩
  | allocBelow dst len limit =>
    obtain ⟨result, l, hr, hcan, heff⟩ := FreeList.allocBelow_spec (hl dst) len limit
    exact ⟨.extent result, _, by simp only [step, hr, ok_bind]; rfl,
      store_update hl hcan heff⟩
  | takeRange dst extent =>
    obtain ⟨l, hr, hcan, heff⟩ := FreeList.takeRange_spec (hl dst) extent
    exact ⟨.done, _, by simp only [step, hr, ok_bind]; rfl,
      store_update hl hcan heff⟩
  | takeRanges dst ranges =>
    obtain ⟨l, hr, hcan, heff⟩ := FreeList.takeRanges_spec (hl dst) (hl ranges)
    exact ⟨.done, _, by simp only [step, hr, ok_bind]; rfl,
      store_update hl hcan heff⟩
  | takeTrailing dst eof =>
    obtain ⟨result, l, hr, hcan, hsome, hnone⟩ := FreeList.takeTrailing_spec (hl dst) eof
    refine ⟨.address result, _, by simp only [step, hr, ok_bind]; rfl,
      store_update hl hcan ?_⟩
    cases result with
    | none => exact hnone rfl
    | some start => exact hsome start rfl
  | releaseAll dst threshold eoa extents =>
    obtain ⟨eoa', l, dropped, hr, hadm, heff⟩ :=
      FreeList.releaseAll_spec (hl dst) threshold eoa h.1 h.2
    exact ⟨.address (some eoa'), _, by simp only [step, hr, ok_bind]; rfl,
      store_update hl hadm.canonical
        ⟨dropped, hadm, heff⟩⟩
  | releaseTrailingRun dst eoa tailLen =>
    obtain ⟨eoa', l, hr, hcan, heff⟩ := FreeList.releaseTrailingRun_spec (hl dst) eoa tailLen
    exact ⟨.address (some eoa'), _, by simp only [step, hr, ok_bind]; rfl,
      store_update hl hcan heff⟩
  | intersection dst left right =>
    obtain ⟨l, hr, hcan, heff⟩ := FreeList.intersection_spec (hl left) (hl right)
    exact ⟨.done, _, by simp only [step, hr, ok_bind]; rfl,
      store_update hl hcan heff⟩

/-- **Representation and set semantics of free lists.** Over any run within the operations'
contracts from canonical lists, no assertion fails, every list of every state is canonical, and
every operation has its meaning on the sets of free bytes. -/
theorem run_canonical (lists : Lists) (ops : List FreeListOp) (hl : ∀ i, (lists i).Canonical)
    (h : AllowedRun step Contract lists ops) :
    ∃ results lists', runAll step lists ops = .ok (results, lists') ∧
      Trace (fun lists op result lists' => (∀ i, (lists' i).Canonical) ∧
        StoreEffect lists op result lists') lists ops results lists' := by
  obtain ⟨results, lists', hrun, -, htrace⟩ :=
    h.trace (fun lists => ∀ i, (lists i).Canonical) step_spec hl
  exact ⟨results, lists', hrun, htrace⟩

/-- A run that frees an extent of an empty list, takes a part of it and intersects. -/
theorem run_canonical_free_alloc :
    ∃ results lists',
      runAll step (fun _ => FreeList.new)
        [.free 0 ⟨512, 100, by decide, by decide⟩, .alloc 0 40, .intersection 1 0 0] =
          .ok (results, lists') ∧
      Trace (fun lists op result lists' => (∀ i, (lists' i).Canonical) ∧
        StoreEffect lists op result lists') (fun _ => FreeList.new)
        [.free 0 ⟨512, 100, by decide, by decide⟩, .alloc 0 40, .intersection 1 0 0]
        results lists' :=
  run_canonical _ _ (fun _ => FreeList.canonical_new)
    ⟨by simp [Contract], fun _ _ _ => ⟨trivial, fun _ _ _ => ⟨trivial, fun _ _ _ => trivial⟩⟩⟩

end FreeListOp

end Hdf5Pure.Space
