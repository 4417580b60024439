import Hdf5Pure.Space.FreeListRuns
import Hdf5Pure.Space.AggregatorTheorems

/-!
# Loans of a free list

Allocations lend extents and frees return them. Whatever the order, every byte that was free at first
is free or lent, and once nothing is lent the lists are those of the start.
-/

namespace Hdf5Pure.Space

open Checked

variable {l₀ l l' : FreeList} {lent : List Extent} {e : Extent}

open Classical in
/-- The free bytes of `l₀` are those of `l` and of the extents lent, each of them once. -/
structure FreeList.Owed (l₀ l : FreeList) (lent : List Extent) : Prop where
  canonical : l.Canonical
  bytes : ∀ x, (if x ∈ l.bytes then 1 else 0) + owners x lent = if x ∈ l₀.bytes then 1 else 0

namespace FreeList.Owed

/-- What is lent is not free. -/
lemma disjoint (h : Owed l₀ l lent) (he : e ∈ lent) : Disjoint l.bytes e.bytes := by
  rw [Set.disjoint_left]
  intro x hfree hx
  have hbytes := h.bytes x
  have hpos := owners_pos.mpr (bytes_subset_covered he hx)
  split_ifs at hbytes <;> omega

open Classical in
/-- An allocation lends what it returns. -/
lemma allocate (h : Owed l₀ l lent) (hcan : l'.Canonical) {len : ℕ} {result : Option Extent}
    (heff : l.Allocates len result l') : Owed l₀ l' (result.toList ++ lent) := by
  cases result with
  | none =>
    rw [show l' = l from heff]
    exact h
  | some e =>
    obtain ⟨-, hsub, hbytes⟩ := heff
    refine ⟨hcan, fun x => ?_⟩
    rw [← h.bytes x, Option.toList_some, List.singleton_append, owners_cons, hbytes]
    by_cases he : x ∈ e.bytes
    · simp [he, hsub he, Extent.mem_bytes.mp he, Nat.add_comm]
    · simp only [Set.mem_sdiff, he, not_false_eq_true, and_true,
        if_neg (mt Extent.mem_bytes.mpr he), Nat.add_zero]

open Classical in
lemma restore (h : Owed l₀ l lent) (he : e ∈ lent) (hcan : l'.Canonical)
    (hbytes : l'.bytes = l.bytes ∪ e.bytes) : Owed l₀ l' (lent.erase e) := by
  refine ⟨hcan, fun x => ?_⟩
  rw [← h.bytes x, show owners x lent = owners x (e :: lent.erase e) from
    (List.perm_cons_erase he).countP_eq _, owners_cons, hbytes]
  by_cases hx : x ∈ e.bytes
  · simp [hx, Set.disjoint_right.mp (h.disjoint he) hx, Extent.mem_bytes.mp hx, Nat.add_comm]
  · simp only [Set.mem_union, hx, or_false, if_neg (mt Extent.mem_bytes.mpr hx), Nat.add_zero]

lemma eq_of_nil (hl : l₀.Canonical) (h : Owed l₀ l []) : l = l₀ := by
  apply h.canonical.eq_of_bytes_eq hl
  ext x
  have hbytes := h.bytes x
  rw [owners_nil, Nat.add_zero] at hbytes
  split_ifs at hbytes with hfree hfirst hfirst
  · exact iff_of_true hfree hfirst
  · exact iff_of_false hfree hfirst

end FreeList.Owed

/-- A store of free lists, with the extents that each list has lent. -/
structure Loans where
  lists : Lists
  lent : ℕ → List Extent

namespace Loans

variable {s : Loans} {lists : Lists} {op : FreeListOp}

def record (lent : List Extent) : FreeListOp → FreeListResult → List Extent
  | .free _ extent, _ => lent.erase extent
  | _, .extent result => result.toList ++ lent
  | _, _ => lent

def step (s : Loans) (op : FreeListOp) : Checked (FreeListResult × Loans) := do
  let (result, lists) ← op.step s.lists
  .ok (result, ⟨lists, Function.update s.lent op.dst (record (s.lent op.dst) op result)⟩)

def Contract (s : Loans) : FreeListOp → Prop
  | .free dst extent => extent ∈ s.lent dst
  | .alloc _ _ | .allocBlock _ _ _ | .allocBelow _ _ _ => True
  | .allocWholeUnits _ len align => align ∣ len
  | _ => False

def Balanced (lists : Lists) (s : Loans) : Prop :=
  ∀ i, (lists i).Owed (s.lists i) (s.lent i)

lemma Balanced.contract (h : Balanced lists s) (hop : Contract s op) :
    FreeListOp.Contract s.lists op := by
  cases op with
  | free dst extent => exact (h dst).disjoint hop
  | allocWholeUnits dst len align => exact hop
  | _ => first | exact trivial | exact hop.elim

/-- One operation keeps the balance. -/
lemma Balanced.step (h : Balanced lists s) (hop : Contract s op) :
    ∃ r s', s.step op = .ok (r, s') ∧ Balanced lists s' := by
  obtain ⟨r, lists', hstep, hcan, heff, hother⟩ :=
    FreeListOp.step_spec s.lists op (fun i => (h i).canonical) (h.contract hop)
  refine ⟨r, _, by rw [Loans.step, hstep]; rfl, fun i => ?_⟩
  by_cases hi : i = op.dst
  · subst hi
    show (lists op.dst).Owed (lists' op.dst) (Function.update s.lent op.dst _ op.dst)
    rw [Function.update_self]
    cases op with
    | free dst extent =>
      cases r with
      | done => exact (h dst).restore hop (hcan dst) heff
      | _ => exact heff.elim
    | alloc | allocBlock | allocWholeUnits =>
      cases r with
      | extent result => exact (h _).allocate (hcan _) heff
      | _ => exact heff.elim
    | allocBelow dst len limit =>
      cases r with
      | extent result => exact (h dst).allocate (hcan dst) heff.1
      | _ => exact heff.elim
    | _ => exact hop.elim
  · show (lists i).Owed (lists' i) (Function.update s.lent op.dst _ i)
    rw [Function.update_of_ne hi, hother i hi]
    exact h i

/-- **What is lent comes back.** Over any run of allocations and of frees of what was allocated, no
assertion fails and every list keeps its bytes, free or lent. Once nothing is lent, the lists are
those of the start, region by region, in whatever order the extents were returned. -/
theorem run_restores (lists : Lists) (hl : ∀ i, (lists i).Canonical) (ops : List FreeListOp)
    (h : AllowedRun step Contract ⟨lists, fun _ => []⟩ ops) :
    ∃ results s, runAll step ⟨lists, fun _ => []⟩ ops = .ok (results, s) ∧ Balanced lists s ∧
      ((∀ i, s.lent i = []) → s.lists = lists) := by
  obtain ⟨results, s, hrun, hs⟩ := h.invariant (Balanced lists)
    (fun _ _ hs hop => hs.step hop) (fun i => ⟨hl i, fun _ => rfl⟩)
  refine ⟨results, s, hrun, hs, fun hlent => funext fun i => ?_⟩
  have hi := hs i
  rw [hlent i] at hi
  exact hi.eq_of_nil (hl i)

def hundred : FreeList := ⟨[⟨512, 100, by decide, by decide⟩], 100⟩

/-- The middle of a region is lent while its head has come back. -/
theorem run_restores_head :
    ∃ results s, runAll step ⟨fun _ => hundred, fun _ => []⟩
        [.alloc 0 40, .alloc 0 30, .free 0 ⟨512, 40, by decide, by decide⟩] = .ok (results, s) ∧
      Balanced (fun _ => hundred) s ∧ ((∀ i, s.lent i = []) → s.lists = fun _ => hundred) :=
  run_restores _ (fun _ => ⟨IntervalLists.separated_singleton, rfl⟩) _
    (.cons rfl trivial (.cons rfl trivial (.cons rfl (.tail _ (.head _)) trivial)))

end Loans

end Hdf5Pure.Space
