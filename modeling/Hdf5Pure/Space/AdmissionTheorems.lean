import Hdf5Pure.Space.Admission
import Hdf5Pure.Space.FreeListAllocTheorems

/-!
# Admission records a part of the returned extents

A batch splits into admitted and dropped extents. The list gains exactly the admitted bytes and
stays canonical, and the end of allocation is lowered over dropped bytes only.
-/

namespace Hdf5Pure.Space

open Checked IntervalLists List

/-! ## Ordered returns -/

section OrderedReturns

variable {C : Type}

abbrev AscendingEntries (l : List (Extent × C)) : Prop :=
  l.Pairwise fun a b => a.1.stop ≤ b.1.start

variable {l : List (Extent × C)}

lemma pairwise_of_startsAscend (h : startsAscend l = true) :
    l.Pairwise fun a b => a.1.start ≤ b.1.start := by
  induction l with
  | nil => exact .nil
  | cons a l ih =>
    cases l with
    | nil => exact pairwise_singleton _ _
    | cons b l =>
      rw [startsAscend, Bool.and_eq_true, decide_eq_true_eq] at h
      have hl := ih h.2
      exact pairwise_cons.mpr ⟨forall_mem_cons.mpr ⟨h.1, fun c hc =>
        h.1.trans ((pairwise_cons.mp hl).1 c hc)⟩, hl⟩

lemma firstOverlap_eq_none (h : AscendingEntries l) : firstOverlap l = none := by
  induction l with
  | nil => rfl
  | cons a l ih =>
    cases l with
    | nil => rfl
    | cons b l =>
      obtain ⟨ha, hl⟩ := pairwise_cons.mp h
      have hab : ¬ b.1.start < a.1.stop := not_lt.mpr (ha b (by simp))
      rw [firstOverlap, if_neg hab, ih hl]

lemma orderedReturns_spec (hd : DisjointReturns l) :
    ∃ l', orderedReturns l = .ok l' ∧ l'.Perm l ∧ AscendingEntries l' := by
  obtain ⟨l', hl', hperm, hsort⟩ : ∃ l', l' = (if startsAscend l then l
      else l.mergeSort fun a b => decide (a.1.start ≤ b.1.start)) ∧ l'.Perm l ∧
      l'.Pairwise fun a b => a.1.start ≤ b.1.start := by
    split_ifs with h
    · exact ⟨l, rfl, .refl _, pairwise_of_startsAscend h⟩
    · exact ⟨_, rfl, mergeSort_perm _ _, FreeList.pairwise_mergeSort_start Prod.fst l⟩
  have hasc : AscendingEntries l' := pairwise_map.mp (FreeList.ascending_of_sorted
    (pairwise_map.mpr hsort) (hperm.map Prod.fst) (pairwise_map.mpr hd))
  refine ⟨l', ?_, hperm, hasc⟩
  simp only [orderedReturns, ← hl', firstOverlap_eq_none hasc]

end OrderedReturns

/-- A merge keeps a transitive order that its comparison decides between the two lists. -/
lemma pairwise_merge_of {α : Type} {R : α → α → Prop} {le : α → α → Bool}
    (htrans : ∀ a b c, R a b → R b c → R a c) {xs ys : List α} (hx : xs.Pairwise R)
    (hy : ys.Pairwise R) (hcross : ∀ a ∈ xs, ∀ b ∈ ys, if le a b then R a b else R b a) :
    (merge xs ys le).Pairwise R := by
  induction xs generalizing ys with
  | nil => simpa using hy
  | cons x xs ihx =>
    induction ys with
    | nil => simpa using hx
    | cons y ys ihy =>
      obtain ⟨hx1, hx2⟩ := pairwise_cons.mp hx
      obtain ⟨hy1, hy2⟩ := pairwise_cons.mp hy
      have hxy := hcross x (by simp) y (by simp)
      rw [cons_merge_cons]
      split
      · rename_i hle
        rw [if_pos hle] at hxy
        refine pairwise_cons.mpr ⟨?_, ihx hx2 hy fun a ha b hb => hcross a (by simp [ha]) b hb⟩
        intro z hz
        rcases mem_merge.mp hz with hz | hz
        · exact hx1 z hz
        · exact forall_mem_cons.mpr ⟨hxy, fun w hw => htrans _ _ _ hxy (hy1 w hw)⟩ z hz
      · rename_i hle
        rw [if_neg hle] at hxy
        refine pairwise_cons.mpr ⟨?_, ihy hy2 fun a ha b hb => hcross a ha b (by simp [hb])⟩
        intro z hz
        rcases mem_merge.mp hz with hz | hz
        · exact forall_mem_cons.mpr ⟨hxy, fun w hw => htrans _ _ _ hxy (hx1 w hw)⟩ z hz
        · exact hy1 z hz

/-! ## The sweep -/

variable {e : Extent} {extents : List Extent}

namespace FlatAdmission

def trackedOf (items : List (Extent × Bool)) : List Extent :=
  items.filterMap fun item => if item.2 then none else some item.1

def returnedOf (items : List (Extent × Bool)) : List Extent :=
  items.filterMap fun item => if item.2 then some item.1 else none

/-- After the items `done`: the returns seen are admitted or dropped, the undecided ones of an
unseeded run end `dropped`, and completed runs lie below the current one. -/
structure Inv (threshold : ℕ) (done : List (Extent × Bool)) (a : FlatAdmission)
    (taken old pending : List Extent) : Prop where
  dropped_eq : a.dropped = old ++ pending
  pendingStart_eq : a.pendingStart = old.length
  split : (returnedOf done).Perm (taken ++ a.dropped)
  short : ∀ e ∈ a.dropped, e.len < threshold
  separated : SeparatedExtents (a.admitted ++ a.run.toList)
  seeded : a.seeded = true → pending = [] ∧
    covered (a.admitted ++ a.run.toList) = covered (trackedOf done) ∪ covered taken
  unseeded : a.seeded = false → covered a.admitted = covered (trackedOf done) ∪ covered taken ∧
    covered a.run.toList = covered pending
  last : ∀ run ∈ a.run, ∀ item ∈ done, item.1.stop ≤ run.stop
  start : a.run = none → a.seeded = false

lemma inv_default (threshold : ℕ) : Inv threshold [] default [] [] [] :=
  ⟨rfl, rfl, by simp [returnedOf, default], by simp [default], by simp [default],
    by simp [default], by simp [default, trackedOf], by simp [default], by simp [default]⟩

lemma finishRun_none (admitted dropped : List Extent) (seeded : Bool) (p : ℕ) :
    finishRun ⟨admitted, dropped, none, seeded, p⟩ =
      ⟨admitted, dropped, none, false, dropped.length⟩ := rfl

lemma finishRun_seeded (admitted dropped : List Extent) (r : Extent) (p : ℕ) :
    finishRun ⟨admitted, dropped, some r, true, p⟩ =
      ⟨admitted ++ [r], dropped.take p, none, false, (dropped.take p).length⟩ := rfl

lemma finishRun_unseeded (admitted dropped : List Extent) (r : Extent) (p : ℕ) :
    finishRun ⟨admitted, dropped, some r, false, p⟩ =
      ⟨admitted, dropped, none, false, dropped.length⟩ := rfl

variable {threshold : ℕ} {done : List (Extent × Bool)} {taken old pending : List Extent}
  {a : FlatAdmission}

/-- Between runs every return seen is admitted or dropped. -/
lemma inv_of_no_run {admitted dropped : List Extent}
    (hsplit : (returnedOf done).Perm (taken ++ dropped)) (hshort : ∀ e ∈ dropped, e.len < threshold)
    (hsep : SeparatedExtents admitted)
    (hcov : covered admitted = covered (trackedOf done) ∪ covered taken) :
    Inv threshold done ⟨admitted, dropped, none, false, dropped.length⟩ taken dropped [] :=
  ⟨by simp, rfl, hsplit, hshort, by simpa using hsep, by simp, fun _ => ⟨hcov, rfl⟩, by simp,
    fun _ => rfl⟩

lemma Inv.finishRun (h : Inv threshold done a taken old pending) :
    Inv threshold done a.finishRun taken a.finishRun.dropped [] ∧ a.finishRun.run = none ∧
      (∀ e ∈ a.finishRun.admitted, e ∈ a.admitted ++ a.run.toList) := by
  obtain ⟨admitted, dropped, run, seeded, p⟩ := a
  obtain ⟨hdrop, hpend, hsplit, hshort, hsep, hseed, hunseed, -, hstart⟩ := h
  simp only at *
  cases run with
  | none =>
    obtain rfl := hstart rfl
    rw [finishRun_none]
    rw [Option.toList_none, append_nil] at hsep
    exact ⟨inv_of_no_run hsplit hshort hsep (hunseed rfl).1, rfl, by simp⟩
  | some r =>
    cases seeded with
    | true =>
      obtain ⟨rfl, hcov⟩ := hseed rfl
      rw [append_nil] at hdrop
      have htake : dropped.take p = dropped := by rw [hpend, hdrop, take_length]
      rw [finishRun_seeded, htake]
      exact ⟨inv_of_no_run hsplit hshort hsep hcov, rfl, by simp⟩
    | false =>
      exact ⟨inv_of_no_run hsplit hshort (separated_append.mp hsep).1 (hunseed rfl).1, rfl,
        fun e he => mem_append_left _ he⟩

@[simp] lemma trackedOf_append (done : List (Extent × Bool)) (e : Extent) (returned : Bool) :
    trackedOf (done ++ [(e, returned)]) = trackedOf done ++ if returned then [] else [e] := by
  cases returned <;> simp [trackedOf]

@[simp] lemma returnedOf_append (done : List (Extent × Bool)) (e : Extent) (returned : Bool) :
    returnedOf (done ++ [(e, returned)]) = returnedOf done ++ if returned then [e] else [] := by
  cases returned <;> simp [returnedOf]

/-- The decision part of `push`, once the run `u` includes the new extent. -/
def decideReturn (a : FlatAdmission) (u e : Extent) (seed returned : Bool) : FlatAdmission :=
  let (dropped, seeded) :=
    if seed && !a.seeded then (a.dropped.take a.pendingStart, true) else (a.dropped, a.seeded)
  let dropped := if returned && !seeded then dropped ++ [e] else dropped
  ⟨a.admitted, dropped, some u, seeded, a.pendingStart⟩

lemma decideReturn_seeded (admitted dropped : List Extent) (run : Option Extent) (p : ℕ)
    (u e : Extent) (seed returned : Bool) :
    decideReturn ⟨admitted, dropped, run, true, p⟩ u e seed returned =
      ⟨admitted, dropped, some u, true, p⟩ := by
  cases seed <;> cases returned <;> rfl

lemma decideReturn_seed (admitted dropped : List Extent) (run : Option Extent) (p : ℕ)
    (u e : Extent) (returned : Bool) :
    decideReturn ⟨admitted, dropped, run, false, p⟩ u e true returned =
      ⟨admitted, dropped.take p, some u, true, p⟩ := by
  cases returned <;> rfl

lemma decideReturn_short (admitted dropped : List Extent) (run : Option Extent) (p : ℕ)
    (u e : Extent) :
    decideReturn ⟨admitted, dropped, run, false, p⟩ u e false true =
      ⟨admitted, dropped ++ [e], some u, false, p⟩ := rfl

/-- A run that grows by an extent admits its returns with the first seed. -/
lemma Inv.decideReturn (h : Inv threshold done a taken old pending) {u : Extent} (returned : Bool)
    (hsep : SeparatedExtents (a.admitted ++ [u])) (hu : u.bytes = covered a.run.toList ∪ e.bytes)
    (hlast : ∀ item ∈ done ++ [(e, returned)], item.1.stop ≤ u.stop) :
    ∃ taken' old' pending', Inv threshold (done ++ [(e, returned)])
      (a.decideReturn u e (!returned || decide (threshold ≤ e.len)) returned)
      taken' old' pending' := by
  obtain ⟨admitted, dropped, run, seeded, p⟩ := a
  obtain ⟨hdrop, hpend, hsplit, hshort, -, hseed, hunseed, -, -⟩ := h
  simp only at *
  obtain ⟨own, hown⟩ : ∃ own : List Extent, own = if returned then [e] else [] := ⟨_, rfl⟩
  have hbytes : e.bytes = covered (if returned then [] else [e]) ∪ covered own := by
    rw [hown]
    cases returned <;> simp
  have hreturned : returnedOf (done ++ [(e, returned)]) = returnedOf done ++ own := by
    rw [returnedOf_append, hown]
  have hlast' : ∀ run ∈ some u, ∀ item ∈ done ++ [(e, returned)], item.1.stop ≤ run.stop := by
    simpa using hlast
  cases seeded with
  | true =>
    -- the run is admitted already
    obtain ⟨rfl, hcov⟩ := hseed rfl
    rw [decideReturn_seeded]
    refine ⟨taken ++ own, old, [], hdrop, hpend, ?_, hshort, hsep, fun _ => ⟨rfl, ?_⟩, by simp,
      hlast', by simp⟩
    · rw [hreturned]
      exact (hsplit.append_right own).trans (by
        simpa using (perm_append_comm : (dropped ++ own).Perm _).append_left taken)
    · simp only [Option.toList_some, covered_append, covered_cons, covered_nil, Set.union_empty, hu,
        trackedOf_append] at hcov ⊢
      rw [← Set.union_assoc, hcov, hbytes]
      ac_rfl
  | false =>
    obtain ⟨hcov, hpending⟩ := hunseed rfl
    cases hs : (!returned || decide (threshold ≤ e.len)) with
    | true =>
      -- the first seed: the pending returns of the run are admitted with it
      have htake : dropped.take p = old := by rw [hpend, hdrop, take_left]
      rw [decideReturn_seed, htake]
      refine ⟨taken ++ pending ++ own, old, [], (append_nil old).symm, hpend, ?_,
        fun d hd => hshort d (by simp [hdrop, hd]), hsep, fun _ => ⟨rfl, ?_⟩, by simp, hlast', by simp⟩
      · rw [hreturned]
        rw [hdrop] at hsplit
        refine (hsplit.append_right own).trans ?_
        simp only [append_assoc]
        refine List.Perm.append_left taken ?_
        exact perm_append_comm.trans (by simp)
      · simp only [Option.toList_some, covered_append, covered_cons, covered_nil, Set.union_empty, hu,
          hcov, hpending, trackedOf_append]
        rw [hbytes]
        ac_rfl
    | false =>
      -- a short return joins a seedless run
      simp only [Bool.or_eq_false_iff, Bool.not_eq_false', decide_eq_false_iff_not] at hs
      obtain ⟨rfl, hlt⟩ := hs
      rw [decideReturn_short]
      refine ⟨taken, old, pending ++ [e], by simp [hdrop], hpend, ?_, ?_, hsep, by simp,
        fun _ => ⟨by simpa using hcov, by simp [hu, hpending]⟩, hlast', by simp⟩
      · rw [hreturned, hown, ← append_assoc]
        exact hsplit.append_right [e]
      · exact forall_mem_append.mpr ⟨hshort, by simpa using hlt⟩

def HoldsSeed (threshold : ℕ) (done : List (Extent × Bool)) (r : Extent) : Prop :=
  ∃ item ∈ done, (item.2 = true → threshold ≤ item.1.len) ∧ item.1.bytes ⊆ r.bytes

lemma HoldsSeed.mono {done' : List (Extent × Bool)} {r r' : Extent}
    (h : HoldsSeed threshold done r) (hdone : done ⊆ done') (hr : r.bytes ⊆ r'.bytes) :
    HoldsSeed threshold done' r' := by
  obtain ⟨item, hitem, hseed, hsub⟩ := h
  exact ⟨item, hdone hitem, hseed, hsub.trans hr⟩

/-- Admitted runs hold a seed, no dropped return touches one, and the earlier dropped returns lie
below the current run. -/
structure Judged (threshold : ℕ) (done : List (Extent × Bool)) (a : FlatAdmission) : Prop where
  admitted : ∀ r ∈ a.admitted, HoldsSeed threshold done r
  run : a.seeded = true → ∀ r ∈ a.run, HoldsSeed threshold done r
  apart : ∀ d ∈ a.dropped, ∀ r ∈ a.admitted, d.stop < r.start ∨ r.stop < d.start
  below : ∀ d ∈ a.dropped.take a.pendingStart, ∀ r ∈ a.run, d.stop < r.start

lemma judged_default (threshold : ℕ) : Judged threshold [] default :=
  ⟨by simp [default], by simp [default], by simp [default], by simp [default]⟩

lemma Judged.finishRun (h : Judged threshold done a) : Judged threshold done a.finishRun := by
  obtain ⟨admitted, dropped, run, seeded, p⟩ := a
  obtain ⟨hadm, hrun, hapart, hbelow⟩ := h
  cases run with
  | none =>
    rw [finishRun_none]
    exact ⟨hadm, by simp, hapart, by simp⟩
  | some r =>
    cases seeded with
    | false =>
      rw [finishRun_unseeded]
      exact ⟨hadm, by simp, hapart, by simp⟩
    | true =>
      rw [finishRun_seeded]
      refine ⟨?_, by simp, ?_, by simp⟩
      · exact forall_mem_append.mpr ⟨hadm, by simpa using hrun⟩
      · intro d hd
        exact forall_mem_append.mpr ⟨hapart d (mem_of_mem_take hd),
          forall_mem_singleton.mpr (.inl (hbelow d hd r rfl))⟩

/-- The run `u` includes the new extent `e`, and the returns dropped before it lie below it. -/
lemma Judged.decideReturn (h : Judged threshold done a) {u : Extent} (returned : Bool)
    (hp : a.pendingStart ≤ a.dropped.length) (hadm : ∀ r ∈ a.admitted, r.stop < e.start)
    (hu : u.bytes = covered a.run.toList ∪ e.bytes)
    (hbelow : ∀ d ∈ a.dropped.take a.pendingStart, d.stop < u.start)
    (hnone : a.run = none → a.seeded = false) :
    Judged threshold (done ++ [(e, returned)])
      (a.decideReturn u e (!returned || decide (threshold ≤ e.len)) returned) := by
  obtain ⟨admitted, dropped, run, seeded, p⟩ := a
  obtain ⟨hadm', hrun', hapart, -⟩ := h
  have hold : ∀ r ∈ admitted, HoldsSeed threshold (done ++ [(e, returned)]) r := fun r hr =>
    (hadm' r hr).mono (subset_append_left _ _) subset_rfl
  have hbelow' : ∀ d ∈ dropped.take p, ∀ r ∈ some u, d.stop < r.start := by simpa using hbelow
  cases seeded with
  | true =>
    -- the run has a seed already
    rw [decideReturn_seeded]
    refine ⟨hold, fun _ r hr => ?_, hapart, hbelow'⟩
    cases hr
    cases run with
    | none => exact absurd (hnone rfl) (by simp)
    | some r' =>
      refine (hrun' rfl r' rfl).mono (subset_append_left _ _) ?_
      rw [hu, Option.toList_some, covered_cons]
      exact Set.subset_union_left.trans Set.subset_union_left
  | false =>
    cases hs : (!returned || decide (threshold ≤ e.len)) with
    | true =>
      rw [decideReturn_seed]
      refine ⟨hold, fun _ r hr => ?_, fun d hd => hapart d (mem_of_mem_take hd), ?_⟩
      · cases hr
        refine ⟨(e, returned), by simp, ?_, hu ▸ Set.subset_union_right⟩
        rintro (hret : returned = true)
        simpa [hret] using hs
      · rwa [take_take, Nat.min_self]
    | false =>
      simp only [Bool.or_eq_false_iff, Bool.not_eq_false'] at hs
      obtain ⟨rfl, -⟩ := hs
      rw [decideReturn_short]
      refine ⟨hold, by simp, forall_mem_append.mpr ⟨hapart, ?_⟩, ?_⟩
      · exact forall_mem_singleton.mpr fun r hr => .inr (hadm r hr)
      · rwa [take_append_of_le_length hp]

section

variable (h : Inv threshold done a taken old pending)

include h

lemma Inv.pendingStart_le : a.pendingStart ≤ a.dropped.length := by
  rw [h.pendingStart_eq, h.dropped_eq, length_append]
  omega

/-- One item: it extends the current run or starts one. -/
lemma Inv.push (hj : Judged threshold done a) (returned : Bool)
    (habove : ∀ item ∈ done, item.1.stop ≤ e.start) (hfirst : a.run = none → a.dropped = [])
    (hadm : ∀ r ∈ a.admitted, r.stop < e.start) (hrun : ∀ r ∈ a.run, r.stop ≤ e.start) :
    ∃ a' taken' old' pending',
      a.push e (!returned || decide (threshold ≤ e.len)) returned = .ok a' ∧
      Inv threshold (done ++ [(e, returned)]) a' taken' old' pending' ∧
      Judged threshold (done ++ [(e, returned)]) a' ∧
      (∀ r ∈ a'.admitted, r.stop < e.stop) ∧ ∃ r, a'.run = some r ∧ r.stop = e.stop := by
  have hpos := e.start_lt_stop
  -- the state once a run that ends before a gap is completed
  obtain ⟨b, hb⟩ : ∃ b, b = if a.run.any fun run => decide (run.stop < e.start) then a.finishRun
      else a := ⟨_, rfl⟩
  have hpush : a.push e (!returned || decide (threshold ≤ e.len)) returned = (do
      let run ← extendRun b.run e
      .ok (b.decideReturn run e (!returned || decide (threshold ≤ e.len)) returned)) := by
    rw [hb]
    rfl
  obtain ⟨old₁, pending₁, hinv, hjb, hbadm, hbrun, hbnone⟩ : ∃ old₁ pending₁,
      Inv threshold done b taken old₁ pending₁ ∧ Judged threshold done b ∧
      (∀ r ∈ b.admitted, r.stop < e.start) ∧ (∀ r ∈ b.run, r.stop = e.start) ∧
      (b.run = none → ∀ d ∈ b.dropped, d.stop < e.start) := by
    by_cases hgap : a.run.any fun run => decide (run.stop < e.start)
    · rw [if_pos hgap] at hb
      obtain ⟨hinv, hnone, hmem⟩ := h.finishRun
      obtain ⟨r, hr, hlt⟩ : ∃ r, a.run = some r ∧ r.stop < e.start := by
        simpa [Option.any_eq_true] using hgap
      refine ⟨_, _, hb ▸ hinv, hb ▸ hj.finishRun, ?_, by simp [hb, hnone], fun _ d hd => ?_⟩
      · intro r' hr'
        rw [hr] at hmem
        exact forall_mem_append.mpr ⟨hadm, by simpa using hlt⟩ r' (hmem r' (hb ▸ hr'))
      · have hret := hinv.split.mem_iff.mpr (mem_append_right _ (hb ▸ hd))
        exact lt_of_le_of_lt (h.last r hr _ (by simpa [returnedOf] using hret)) hlt
    · rw [if_neg hgap] at hb
      subst hb
      refine ⟨old, pending, h, hj, hadm, ?_, fun hnone d hd => ?_⟩
      · intro r hr
        have hle := hrun r hr
        have hnlt : ¬ r.stop < e.start := by simpa [Option.mem_def.mp hr] using hgap
        omega
      · rw [hfirst hnone] at hd
        exact absurd hd not_mem_nil
  -- the run that ends with the new extent
  obtain ⟨u, hextend, hubytes, hut, hus, hsep⟩ : ∃ u, extendRun b.run e = .ok u ∧
      u.bytes = covered b.run.toList ∪ e.bytes ∧ u.stop = e.stop ∧
      (∀ d ∈ b.dropped.take b.pendingStart, d.stop < u.start) ∧
      SeparatedExtents (b.admitted ++ [u]) := by
    have hsep := hinv.separated
    cases hr : b.run with
    | none =>
      rw [hr, Option.toList_none, append_nil] at hsep
      exact ⟨e, rfl, by simp, rfl, fun d hd => hbnone hr d (mem_of_mem_take hd),
        separated_append.mpr ⟨hsep, separated_singleton, by simpa using hbadm⟩⟩
    | some r =>
      have hstop : r.stop = e.start := hbrun r hr
      have hrpos := r.start_lt_stop
      obtain ⟨u, hu, hus, hut⟩ := Extent.exists_between (s := r.start) (by omega)
        e.stop_lt_limit
      rw [hr, Option.toList_some] at hsep
      obtain ⟨hs1, -, hs2⟩ := separated_append.mp hsep
      refine ⟨u, by simp [extendRun, assert, hstop, hu], ?_, hut,
        fun d hd => hus ▸ hjb.below d hd r hr,
        separated_append.mpr ⟨hs1, separated_singleton, by simpa [hus] using hs2⟩⟩
      ext x
      simp only [Option.toList_some, covered_cons, covered_nil, Set.union_empty, Set.mem_union,
        Extent.mem_bytes, hus, hut]
      omega
  obtain ⟨taken', old', pending', hinv'⟩ := hinv.decideReturn returned hsep hubytes (by
    rw [hut]
    exact forall_mem_append.mpr ⟨fun item hitem => (habove item hitem).trans hpos.le, by simp⟩)
  exact ⟨_, taken', old', pending', by rw [hpush, hextend]; rfl, hinv',
    hjb.decideReturn returned hinv.pendingStart_le hbadm hubytes hus hinv.start,
    fun r hr => (hbadm r hr).trans hpos, u, rfl, hut⟩

/-- The sweep over ascending items decides every return. -/
lemma Inv.sweep (items : List (Extent × Bool))
    (hj : Judged threshold done a) (hasc : AscendingEntries (done ++ items))
    (hfirst : a.run = none → a.dropped = [])
    (hnext : ∀ item ∈ items, (∀ r ∈ a.admitted, r.stop < item.1.start) ∧
      ∀ r ∈ a.run, r.stop ≤ item.1.start) :
    ∃ a' taken' old' pending', a.sweep threshold items = .ok a' ∧
      Inv threshold (done ++ items) a' taken' old' pending' ∧ Judged threshold (done ++ items) a' := by
  induction items generalizing done a taken old pending with
  | nil => exact ⟨a, taken, old, pending, rfl, by simpa using h, by simpa using hj⟩
  | cons item items ih =>
    obtain ⟨e, returned⟩ := item
    obtain ⟨hadm, hrun⟩ := hnext (e, returned) (by simp)
    obtain ⟨-, hitems, hcross⟩ := pairwise_append.mp hasc
    have hlater := (pairwise_cons.mp hitems).1
    obtain ⟨a₁, taken₁, old₁, pending₁, hpush, hinv, hj₁, hadm₁, r, hr, hstop⟩ :=
      h.push hj returned (fun i hi => hcross i hi (e, returned) (by simp)) hfirst hadm hrun
    obtain ⟨a', taken', old', pending', hsweep, hinv', hj'⟩ := ih hinv hj₁ (by simpa using hasc)
      (by simp [hr]) (by
        intro i hi
        have hle : e.stop ≤ i.1.start := hlater i hi
        refine ⟨fun r hr => lt_of_lt_of_le (hadm₁ r hr) hle, ?_⟩
        simpa [hr, hstop] using hle)
    refine ⟨a', taken', old', pending', ?_, by simpa using hinv', by simpa using hj'⟩
    simp only [FlatAdmission.sweep, hpush, ok_bind, hsweep]

end

end FlatAdmission

/-! ## Releasing extents -/

namespace FreeList

/-- The admitted extents of a batch join the list, and every dropped one is shorter than the
threshold. -/
structure Admits (l : FreeList) (threshold : ℕ) (extents dropped : List Extent) (l' : FreeList) :
    Prop where
  canonical : l'.Canonical
  split : ∃ taken, extents.Perm (taken ++ dropped) ∧ l'.bytes = l.bytes ∪ covered taken
  short : ∀ e ∈ dropped, e.len < threshold

variable {l : FreeList}

lemma release_spec (hl : l.Canonical) (threshold : ℕ) (hd : Disjoint l.bytes e.bytes) :
    ∃ release l', l.release threshold e = .ok (release, l') ∧ l'.Canonical ∧
      (release = .drop → l' = l ∧ e.len < threshold) ∧
      (release ≠ .drop → l'.bytes = l.bytes ∪ e.bytes) := by
  obtain ⟨l', hl', hcan, hbytes⟩ := free_spec hl hd
  rw [release, TrackedSpace.release_eq hl']
  split_ifs with hlen
  · exact ⟨.track, l', rfl, hcan, nofun, fun _ => hbytes⟩
  · exact ⟨.merge, l', rfl, hcan, nofun, fun _ => hbytes⟩
  · exact ⟨.drop, l, rfl, hl, fun _ => ⟨rfl, by omega⟩, by simp⟩

lemma trackedOf_sweepOrder (tracked returned : List Extent) :
    (FlatAdmission.trackedOf (sweepOrder tracked returned)).Perm tracked ∧
      (FlatAdmission.returnedOf (sweepOrder tracked returned)).Perm returned := by
  have hperm : (sweepOrder tracked returned).Perm
      (tracked.map (·, false) ++ returned.map (·, true)) := merge_perm_append _
  constructor <;> exact (hperm.filterMap _).trans (by simp)

/-- The sweep visits disjoint extents in ascending order. -/
lemma sweepOrder_ascending {tracked returned : List Extent} (ht : AscendingExtents tracked)
    (hr : AscendingExtents returned)
    (hd : ∀ a ∈ tracked, ∀ b ∈ returned, a.stop ≤ b.start ∨ b.stop ≤ a.start) :
    AscendingEntries (sweepOrder tracked returned) := by
  have hx : AscendingEntries (tracked.map (·, false)) := pairwise_map.mpr ht
  have hy : AscendingEntries (returned.map (·, true)) := pairwise_map.mpr hr
  refine pairwise_merge_of
    (fun _ b _ hab hbc => (hab.trans b.1.start_lt_stop.le).trans hbc) hx hy ?_
  simp only [forall_mem_map, decide_eq_true_eq]
  intro a ha b hb
  have := a.start_lt_stop
  have := b.start_lt_stop
  rcases hd a ha b hb with h | h
  · rw [if_pos (by omega)]
    exact h
  · rw [if_neg (by omega)]
    exact h

/-- The items of a sweep are the tracked and the returned extents in order, and the list is rebuilt
from the admitted runs. -/
structure Swept (l : FreeList) (threshold : ℕ) (extents dropped : List Extent) (l' : FreeList)
    (items : List (Extent × Bool)) (a : FlatAdmission) (taken : List Extent) : Prop where
  ascending : AscendingEntries items
  tracked : (FlatAdmission.trackedOf items).Perm l.regions
  returned : (FlatAdmission.returnedOf items).Perm extents
  sweep : FlatAdmission.default.sweep threshold items = .ok a
  inv : FlatAdmission.Inv threshold items a.finishRun taken a.finishRun.dropped []
  dropped : a.finishRun.dropped = dropped
  canonical : l'.Canonical
  regions : l'.bytes = covered a.finishRun.admitted
  bytes : l'.bytes = l.bytes ∪ covered taken

lemma releaseBatch_swept (hl : l.Canonical) (threshold : ℕ) {a b : Extent} {rest : List Extent}
    (hd : DisjointExtents (a :: b :: rest))
    (hfree : ∀ e ∈ a :: b :: rest, Disjoint l.bytes e.bytes) :
    ∃ dropped l' items adm taken, l.releaseBatch threshold (a :: b :: rest) = .ok (dropped, l') ∧
      Swept l threshold (a :: b :: rest) dropped l' items adm taken ∧
      FlatAdmission.Judged threshold items adm.finishRun := by
  obtain ⟨returned, hret, hperm, hasc⟩ := orderedReturns_spec
    (l := (a :: b :: rest).map (·, ())) (pairwise_map.mpr hd)
  have hpermExt : (returned.map Prod.fst).Perm (a :: b :: rest) := by
    simpa [Function.comp_def] using hperm.map Prod.fst
  have hascExt : AscendingExtents (returned.map Prod.fst) := pairwise_map.mpr hasc
  have hitems := sweepOrder_ascending hl.separated.ascending hascExt (by
    intro r hr e he
    exact disjoint_bytes_iff.mp (hfree e (hpermExt.subset he)) r hr)
  obtain ⟨adm, taken, old, pending, hsweep, hinv, hjudged⟩ :=
    (FlatAdmission.inv_default threshold).sweep _ (FlatAdmission.judged_default threshold)
      (by simpa using hitems) (fun _ => rfl) (by simp [FlatAdmission.default])
  rw [nil_append] at hinv hjudged
  obtain ⟨hfin, hnone, -⟩ := hinv.finishRun
  obtain ⟨htracked, hreturned⟩ := trackedOf_sweepOrder l.regions (returned.map Prod.fst)
  have hsep := hfin.separated
  rw [hnone, Option.toList_none, append_nil] at hsep
  obtain ⟨l', hl', hcan, hbytes⟩ := fromSorted_of_ascending hsep.ascending
  refine ⟨adm.finishRun.dropped, l', _, adm, taken, ?_, ⟨hitems, htracked,
    hreturned.trans hpermExt, hsweep, hfin, rfl, hcan, hbytes, ?_⟩, hjudged.finishRun⟩
  · simp only [releaseBatch, hret, hsweep, ok_bind, hl']
  · rw [hbytes, (hfin.unseeded (hfin.start hnone)).1, covered_perm htracked]
    rfl

lemma releaseBatch_spec (hl : l.Canonical) (threshold : ℕ) (hd : DisjointExtents extents)
    (hfree : ∀ e ∈ extents, Disjoint l.bytes e.bytes) :
    ∃ dropped l', l.releaseBatch threshold extents = .ok (dropped, l') ∧
      Admits l threshold extents dropped l' := by
  match extents with
  | [] => exact ⟨[], l, rfl, hl, ⟨[], by simp, by simp⟩, by simp⟩
  | [e] =>
    obtain ⟨release, l', hr, hcan, hdrop, hkeep⟩ := release_spec hl threshold (hfree e (by simp))
    by_cases h : release = .drop
    · obtain ⟨rfl, hlt⟩ := hdrop h
      exact ⟨[e], l', by simp [releaseBatch, hr, h], hcan, ⟨[], by simp, by simp⟩, by simpa using hlt⟩
    · exact ⟨[], l', by simp [releaseBatch, hr, h], hcan, ⟨[e], by simp, by simp [hkeep h]⟩, by simp⟩
  | a :: b :: rest =>
    obtain ⟨dropped, l', items, adm, taken, hbatch, hswept, -⟩ :=
      releaseBatch_swept hl threshold hd hfree
    obtain rfl := hswept.dropped
    exact ⟨_, l', hbatch, hswept.canonical,
      ⟨taken, hswept.returned.symm.trans hswept.inv.split, hswept.bytes⟩, hswept.inv.short⟩

/-- `releaseAll` admits a part of the returns, and the end of allocation moves down over dropped
bytes only. -/
lemma releaseAll_spec (hl : l.Canonical) (threshold eoa : ℕ) (hd : DisjointExtents extents)
    (hfree : ∀ e ∈ extents, Disjoint l.bytes e.bytes) :
    ∃ eoa' l' dropped, l.releaseAll threshold eoa extents = .ok (eoa', l') ∧
      Admits l threshold extents dropped l' ∧ eoa' ≤ eoa ∧ Set.Ico eoa' eoa ⊆ covered dropped := by
  obtain ⟨dropped, l', hbatch, hadm⟩ := releaseBatch_spec hl threshold hd hfree
  have hshrink : ∀ (d : List Extent) (cur : ℕ), covered d ⊆ covered dropped →
      cur ≤ eoa → Set.Ico cur eoa ⊆ covered dropped →
      d.foldl shrinkBy cur ≤ eoa ∧ Set.Ico (d.foldl shrinkBy cur) eoa ⊆ covered dropped := by
    intro d
    induction d with
    | nil => exact fun cur _ hle hsub => ⟨hle, hsub⟩
    | cons e d ih =>
      intro cur hcov hle hsub
      rw [covered_cons, Set.union_subset_iff] at hcov
      have hpos := e.start_lt_stop
      refine ih _ hcov.2 ?_ ?_
      · unfold shrinkBy
        split_ifs <;> omega
      · unfold shrinkBy
        split_ifs with h
        · intro x hx
          by_cases hxe : x < e.stop
          · exact hcov.1 ⟨hx.1, hxe⟩
          · exact hsub ⟨by omega, hx.2⟩
        · exact hsub
  obtain ⟨hle, hsub⟩ := hshrink (dropped.mergeSort fun a b => decide (b.start ≤ a.start)) eoa
    (covered_perm (mergeSort_perm _ _)).le le_rfl (by simp)
  exact ⟨_, l', dropped, by simp [releaseAll, hbatch], hadm, hle, hsub⟩

end FreeList

end Hdf5Pure.Space
