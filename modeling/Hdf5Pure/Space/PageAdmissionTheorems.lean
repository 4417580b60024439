import Hdf5Pure.Space.AdmissionTheorems
import Hdf5Pure.Space.ExtentMap
import Hdf5Pure.Space.PageAdmission

/-!
# PAGE admission splits the returns

The worklist decides every return: an admitted one is added to the list of its class, and the others
are dropped. Every iteration takes a return off the queue or admits one.
-/

namespace Hdf5Pure.Space

open List hiding Disjoint

abbrev PagedPostFree.Canonical (post : PagedPostFree) : Prop := ∀ c, (post.list c).Canonical

abbrev PagedPostFree.Apart (post : PagedPostFree) : Prop :=
  ∀ c c', c ≠ c' → Disjoint (post.list c).bytes (post.list c').bytes

open Checked IntervalLists

/-! ## Class indexes -/

namespace ClassIndex

/-- The index holds separated extents by their starts. -/
structure Coherent (index : ClassIndex) : Prop where
  keyed : index.regions.Keyed Extent.start
  separated : SeparatedExtents index.regions.values

variable {index : ClassIndex} {e : Extent}

/-- An index starts with the extents of its list. -/
lemma new_spec {l : FreeList} (hl : l.Canonical) :
    (ClassIndex.new l).Coherent ∧ (ClassIndex.new l).regions.values = l.regions := by
  obtain ⟨hkeyed, hvalues⟩ := OrdMap.collect_spec hl.pairwise_start
  exact ⟨⟨hkeyed, by rw [ClassIndex.new, hvalues]; exact hl.separated⟩, hvalues⟩

/-- The extent that ends at the start of `e` is taken out of the index. -/
lemma Coherent.joinPrevious (h : index.Coherent) {pre post : List Extent}
    {previous next : Option Extent} (ha : Around index.regions.values e pre previous next post) :
    ∃ index', index.joinPrevious e = .ok (unionStart previous e, index') ∧
      index'.regions.Keyed Extent.start ∧
      index'.regions.values = pre ++ (next.toList ++ post) := by
  have hlast := ha.lastBelow_eq h.keyed
  unfold ClassIndex.joinPrevious
  rw [hlast]
  cases previous with
  | some a =>
    have hstop : a.stop = e.start := ha.previous_eq a rfl
    have hv : index.regions.values = pre ++ a :: (next.toList ++ post) := by
      rw [ha.split]
      simp
    refine ⟨⟨index.regions.remove a.start⟩, ?_, h.keyed.remove _, h.keyed.values_remove hv⟩
    simp [hstop, assert, unionStart]
  | none =>
    refine ⟨index, ?_, h.keyed, by rw [ha.split]; simp⟩
    cases hpre : pre.getLast? with
    | none => simp [hpre, unionStart]
    | some a =>
      have hstop := ha.pre_lt a (mem_of_getLast? hpre)
      simp [hpre, assert, hstop.le, hstop.ne, unionStart]

/-- The extent that starts at the end of `e` is taken out of the index. -/
lemma joinNext_spec {regions pre post : List Extent} {previous next : Option Extent}
    (hk : index.regions.Keyed Extent.start) (ha : Around regions e pre previous next post)
    (hsep : SeparatedExtents regions) (hv : index.regions.values = pre ++ (next.toList ++ post)) :
    ∃ index', index.joinNext (unionStart previous e) e = .ok (unionStop next e, index') ∧
      index'.regions.Keyed Extent.start ∧ index'.regions.values = pre ++ post := by
  have hfirst := ha.firstFrom_eq hsep hk hv
  unfold ClassIndex.joinNext
  rw [hfirst]
  cases next with
  | some a =>
    have hstart : a.start = e.stop := ha.next_eq a rfl
    refine ⟨⟨index.regions.remove a.start⟩, ?_, hk.remove _, hk.values_remove hv⟩
    simp [hstart, assert, unionStop]
  | none =>
    refine ⟨index, ?_, hk, hv⟩
    cases hpost : post with
    | nil => simp [unionStop]
    | cons a rest =>
      have hstart := ha.post_lt a (by simp [hpost])
      simp [assert, hstart.le, hstart.ne, unionStop]

/-- A disjoint extent joins the bytes of the index. -/
lemma Coherent.insert (h : index.Coherent) (hd : Disjoint (covered index.regions.values) e.bytes) :
    ∃ run index', index.insert e = .ok (run, index') ∧ index'.Coherent ∧
      covered index'.regions.values = covered index.regions.values ∪ e.bytes := by
  simp only [disjoint_covered_left, Extent.disjoint_iff] at hd
  obtain ⟨pre, previous, next, post, ha⟩ := exists_around h.separated hd
  obtain ⟨index₁, hprev, hk₁, hv₁⟩ := h.joinPrevious ha
  obtain ⟨index₂, hnext, hk₂, hv₂⟩ := joinNext_spec hk₁ ha h.separated hv₁
  obtain ⟨run, hrun, hs, ht⟩ := ha.exists_union
  obtain ⟨hsep, hcov, -⟩ := ha.union_spec h.separated hs ht
  obtain ⟨-, hright, hcross⟩ := separated_append.mp hsep
  have hv₃ : (index₂.regions.insert run.start run).values = pre ++ run :: post := by
    apply hk₂.values_insert hv₂
    · intro a ha
      exact a.start_lt_stop.trans (hcross a ha run (by simp))
    · intro a ha
      exact run.start_lt_stop.trans ((separated_cons.mp hright).1 a ha)
  refine ⟨run, ⟨index₂.regions.insert run.start run⟩, ?_, ⟨hk₂.insert run, ?_⟩, ?_⟩
  · simp only [ClassIndex.insert, hprev, ok_bind, hnext, hrun, expect_some, hs]
  · show SeparatedExtents (index₂.regions.insert run.start run).values
    rwa [hv₃]
  · show covered (index₂.regions.insert run.start run).values = _
    rw [hv₃, hcov]

/-- The list of an index holds its bytes. -/
lemma Coherent.intoList (h : index.Coherent) :
    ∃ l, index.intoList = .ok l ∧ l.Canonical ∧ l.bytes = covered index.regions.values := by
  obtain ⟨l, hl, hcan, hbytes⟩ := FreeList.fromSorted_of_ascending h.separated.ascending
  exact ⟨l, by simp only [ClassIndex.intoList, hl, ok_bind], hcan, hbytes⟩

end ClassIndex

/-! ## The worklist -/

def classBytes (c : FreeClass) (l : Returns) : Set ℕ :=
  {x | ∃ e, (e, c) ∈ l ∧ x ∈ e.bytes}

variable {c : FreeClass} {index' : ClassIndex}

lemma mem_classBytes {l : Returns} {x : ℕ} :
    x ∈ classBytes c l ↔ ∃ e, (e, c) ∈ l ∧ x ∈ e.bytes := Iff.rfl

def classEntryBytes (c : FreeClass) (A : Set (Extent × FreeClass)) : Set ℕ :=
  {x | ∃ e, (e, c) ∈ A ∧ x ∈ e.bytes}

/-- A further entry adds its bytes to its own class. -/
lemma classEntryBytes_insert (c c' : FreeClass) (e : Extent) (A : Set (Extent × FreeClass)) :
    classEntryBytes c' (insert (e, c) A) = classEntryBytes c' A ∪ {x | c' = c ∧ x ∈ e.bytes} := by
  ext x
  simp only [classEntryBytes, Set.mem_insert_iff, Set.mem_union, Set.mem_ofPred_eq, Prod.mk.injEq,
    or_and_right, exists_or, and_assoc, exists_eq_left]
  exact or_comm

namespace PageAdmission

def admittedBytes (a : PageAdmission) (c : FreeClass) : Set ℕ :=
  {x | ∃ (i : ℕ) (r : PendingReturn), a.returned[i]? = some r ∧ r.state = .admitted ∧ r.freeClass = c ∧ x ∈ r.extent.bytes}

def entry (r : PendingReturn) : Extent × FreeClass := (r.extent, r.freeClass)

/-- Every class index holds its tracked space and its admitted returns, and the queue the scheduled
returns once each. -/
structure Inv (post : PagedPostFree) (returns : Returns) (a : PageAdmission) : Prop where
  entries : a.returned.map entry = returns
  coherent : ∀ c, (a.classes c).Coherent
  classes : ∀ c, covered (a.classes c).regions.values = (post.list c).bytes ∪ a.admittedBytes c
  queue : ∀ i, i ∈ a.queue ↔ ∃ r, a.returned[i]? = some r ∧ r.state = .queued
  nodup : a.queue.Nodup

def measure (a : PageAdmission) : ℕ :=
  a.queue.length + 3 * a.returned.countP fun r => decide (r.state ≠ .admitted)

lemma getElem?_setState (a : PageAdmission) (i j : ℕ) (state : AdmissionState) :
    (a.setState i state).returned[j]? =
      a.returned[j]?.map fun r => if i = j then { r with state := state } else r := by
  simp [setState, getElem?_modify]

/-- A new state leaves the entry of every return. -/
lemma entries_setState (a : PageAdmission) (i : ℕ) (state : AdmissionState) :
    (a.setState i state).returned.map entry = a.returned.map entry := by
  apply ext_getElem?
  intro j
  rw [getElem?_map, getElem?_map, getElem?_setState, Option.map_map]
  congr 1
  funext r
  by_cases hij : i = j <;> simp [hij, entry]

variable {post : PagedPostFree} {returns : Returns} {a : PageAdmission} {i : ℕ}
  {r : PendingReturn}

/-- A return of the worklist is the one given at its position. -/
lemma Inv.getElem? (h : Inv post returns a)
    (hr : a.returned[i]? = some r) : returns[i]? = some (entry r) := by
  rw [← h.entries, getElem?_map, hr]
  rfl

/-- Only admitting a return changes how many are left. -/
lemma countP_setState (hr : a.returned[i]? = some r) (hstate : r.state ≠ .admitted)
    (state : AdmissionState) :
    (a.setState i state).returned.countP (fun r => decide (r.state ≠ .admitted)) +
        (if state = .admitted then 1 else 0) =
      a.returned.countP fun r => decide (r.state ≠ .admitted) := by
  obtain ⟨hlt, hget⟩ := List.getElem?_eq_some_iff.mp hr
  have hsplit : a.returned = a.returned.take i ++ r :: a.returned.drop (i + 1) := by
    rw [← hget, ← drop_eq_getElem_cons hlt, take_append_drop]
  have hmodify : (a.setState i state).returned =
      a.returned.take i ++ { r with state := state } :: a.returned.drop (i + 1) := by
    rw [← hget]
    exact modify_eq_take_cons_drop hlt
  conv_rhs => rw [hsplit]
  rw [hmodify, countP_append, countP_append, countP_cons, countP_cons]
  by_cases hs : state = .admitted
  · simp [hs, hstate]
    omega
  · simp [hs, hstate]

def admittedSet (a : PageAdmission) : Set (Extent × FreeClass) :=
  {x | ∃ (i : ℕ) (r : PendingReturn),
    a.returned[i]? = some r ∧ r.state = .admitted ∧ entry r = x}

/-- The admitted bytes are those of the admitted entries. -/
lemma admittedBytes_eq (a : PageAdmission) (c : FreeClass) :
    a.admittedBytes c = classEntryBytes c a.admittedSet := by
  ext x
  constructor
  · rintro ⟨i, r, hr, hstate, rfl, hx⟩
    exact ⟨r.extent, ⟨i, r, hr, hstate, rfl⟩, hx⟩
  · rintro ⟨e, ⟨i, r, hr, hstate, heq⟩, hx⟩
    cases heq
    exact ⟨i, r, hr, hstate, rfl, hx⟩

/-- Only the state `admitted` makes a return an admitted one. -/
lemma mem_admittedSet_setState (hr : a.returned[i]? = some r) (hstate : r.state ≠ .admitted)
    {state : AdmissionState} {x : Extent × FreeClass} :
    x ∈ (a.setState i state).admittedSet ↔
      (state = .admitted ∧ x = entry r) ∨ x ∈ a.admittedSet := by
  simp only [admittedSet, Set.mem_ofPred_eq, getElem?_setState, Option.map_eq_some_iff]
  constructor
  · rintro ⟨j, _, ⟨r', hr', rfl⟩, hadm, rfl⟩
    by_cases hij : i = j
    · subst hij
      cases hr.symm.trans hr'
      rw [if_pos rfl] at hadm ⊢
      exact .inl ⟨hadm, rfl⟩
    · rw [if_neg hij] at hadm ⊢
      exact .inr ⟨j, r', hr', hadm, rfl⟩
  · rintro (⟨rfl, rfl⟩ | ⟨j, r', hr', hadm, rfl⟩)
    · exact ⟨i, _, ⟨r, hr, if_pos rfl⟩, rfl, rfl⟩
    · have hij : i ≠ j := by
        rintro rfl
        cases hr.symm.trans hr'
        exact hstate hadm
      exact ⟨j, r', ⟨r', hr', by rw [if_neg hij]⟩, hadm, rfl⟩

lemma admittedSet_setState (hr : a.returned[i]? = some r) (hstate : r.state ≠ .admitted)
    {state : AdmissionState} (hs : state ≠ .admitted) :
    (a.setState i state).admittedSet = a.admittedSet :=
  Set.ext fun x => by simp [mem_admittedSet_setState hr hstate, hs]

lemma admittedSet_joined (hr : a.returned[i]? = some r) (hstate : r.state ≠ .admitted) :
    (a.setState i .admitted).admittedSet = insert (entry r) a.admittedSet :=
  Set.ext fun x => by simp [mem_admittedSet_setState hr hstate]

/-- A position of an extended list is an old one or the last. -/
lemma getElem?_concat_eq_some {l : List PendingReturn} {r' : PendingReturn} :
    (l ++ [r])[i]? = some r' ↔ l[i]? = some r' ∨ (i = l.length ∧ r = r') := by
  rw [getElem?_append]
  by_cases hlt : i < l.length
  · simp [hlt, hlt.ne]
  · rw [if_neg hlt, getElem?_eq_none (not_lt.mp hlt), getElem?_singleton]
    by_cases heq : i = l.length
    · simp [heq]
    · have : i - l.length ≠ 0 := by omega
      simp [heq, this]

/-- A further return is admitted when its state says so. -/
lemma admittedSet_concat {b : PageAdmission} (hb : b.returned = a.returned ++ [r]) :
    b.admittedSet = if r.state = .admitted then insert (entry r) a.admittedSet
      else a.admittedSet := by
  ext x
  have hmem : x ∈ b.admittedSet ↔ (r.state = .admitted ∧ x = entry r) ∨ x ∈ a.admittedSet := by
    simp only [admittedSet, hb, getElem?_concat_eq_some, Set.mem_ofPred_eq]
    constructor
    · rintro ⟨i, r', hr | ⟨-, rfl⟩, hstate, rfl⟩
      · exact .inr ⟨i, r', hr, hstate, rfl⟩
      · exact .inl ⟨hstate, rfl⟩
    · rintro (⟨hstate, rfl⟩ | ⟨i, r', hr, hstate, rfl⟩)
      · exact ⟨_, _, .inr ⟨rfl, rfl⟩, hstate, rfl⟩
      · exact ⟨i, r', .inl hr, hstate, rfl⟩
  split_ifs with hadm <;> simp [hmem, hadm]

/-- Queueing a pending neighbour keeps the invariant and costs one iteration. -/
lemma Inv.requeue (h : Inv post returns a) (neighbor : Option ℕ) :
    Inv post returns (a.requeue neighbor) ∧ (a.requeue neighbor).measure ≤ a.measure + 1 := by
  cases neighbor with
  | none => exact ⟨h, by simp [PageAdmission.requeue]⟩
  | some i =>
    unfold PageAdmission.requeue
    simp only
    split_ifs with hpend
    swap
    · exact ⟨h, by simp⟩
    obtain ⟨r, hr, hstate⟩ : ∃ r, a.returned[i]? = some r ∧ r.state = .pending := by
      cases hr : a.returned[i]? with
      | none => simp [hr] at hpend
      | some r => exact ⟨r, rfl, by simpa [hr] using hpend⟩
    have hne : r.state ≠ .admitted := by simp [hstate]
    have hnot : i ∉ a.queue := by
      intro hi
      obtain ⟨r', hr', hq⟩ := (h.queue i).mp hi
      cases hr.symm.trans hr'
      simp [hstate] at hq
    refine ⟨⟨(entries_setState a i .queued).trans h.entries, h.coherent, ?_, ?_, ?_⟩, ?_⟩
    · intro c
      show covered (a.classes c).regions.values =
        (post.list c).bytes ∪ (a.setState i .queued).admittedBytes c
      rw [h.classes c, admittedBytes_eq, admittedBytes_eq, admittedSet_setState hr hne (by simp)]
    · intro j
      show j ∈ a.queue ++ [i] ↔ ∃ r, (a.setState i .queued).returned[j]? = some r ∧ r.state = .queued
      rw [mem_append, mem_singleton, h.queue j, getElem?_setState]
      by_cases hij : i = j
      · subst hij
        simp [hr]
      · simp [hij, Ne.symm hij]
    · show (a.queue ++ [i]).Nodup
      rw [nodup_append]
      exact ⟨h.nodup, nodup_singleton i, by rintro x hx _ hy rfl; simp at hy; exact hnot (hy ▸ hx)⟩
    · have hcount := countP_setState hr hne .queued
      simp only [reduceCtorEq, if_false, Nat.add_zero] at hcount
      show (a.queue ++ [i]).length + 3 * (a.setState i .queued).returned.countP _ ≤ _
      rw [hcount, length_append, PageAdmission.measure]
      simp
      omega

/-- The returns are disjoint from one another and from the tracked space of every class. -/
structure Returnable (post : PagedPostFree) (returns : Returns) : Prop where
  disjoint : returns.Pairwise fun a b => Disjoint a.1.bytes b.1.bytes
  tracked : ∀ r ∈ returns, ∀ c, Disjoint (post.list c).bytes r.1.bytes

/-- A return that is not admitted shares no byte with any class. -/
lemma Inv.disjoint (hret : Returnable post returns) (h : Inv post returns a)
    (hr : a.returned[i]? = some r) (hstate : r.state ≠ .admitted)
    (c : FreeClass) : Disjoint (covered (a.classes c).regions.values) r.extent.bytes := by
  have hentry := h.getElem? hr
  rw [h.classes c, Set.disjoint_union_left]
  refine ⟨hret.tracked _ (mem_of_getElem? hentry) c, ?_⟩
  rw [Set.disjoint_left]
  rintro x ⟨j, r', hr', hadm, -, hx⟩ hxr
  have hentry' := h.getElem? hr'
  have hij : i ≠ j := by
    rintro rfl
    cases hr.symm.trans hr'
    exact hstate hadm
  obtain ⟨hi, hgi⟩ := List.getElem?_eq_some_iff.mp hentry
  obtain ⟨hj, hgj⟩ := List.getElem?_eq_some_iff.mp hentry'
  have hpair := pairwise_iff_getElem.mp hret.disjoint
  rcases Nat.lt_or_gt_of_ne hij with hlt | hlt
  · have hd := hpair i j hi hj hlt
    rw [hgi, hgj] at hd
    exact Set.disjoint_left.mp hd hxr hx
  · have hd := hpair j i hj hi hlt
    rw [hgi, hgj] at hd
    exact Set.disjoint_left.mp hd hx hxr

/-- The class of an admitted return grows by its bytes. -/
lemma Inv.update_classes (h : Inv post returns a) {e : Extent} (hcoh : index'.Coherent)
    (hcov : covered index'.regions.values = covered (a.classes c).regions.values ∪ e.bytes)
    (c' : FreeClass) : (Function.update a.classes c index' c').Coherent ∧
      covered (Function.update a.classes c index' c').regions.values =
        (post.list c').bytes ∪ classEntryBytes c' (insert (e, c) a.admittedSet) := by
  rw [classEntryBytes_insert, ← admittedBytes_eq, ← Set.union_assoc, ← h.classes c']
  by_cases hc : c' = c
  · have hbytes : {x | c = c ∧ x ∈ e.bytes} = e.bytes := Set.ext fun x => and_iff_right rfl
    rw [hc, Function.update_self, hbytes]
    exact ⟨hcoh, hcov⟩
  · rw [Function.update_of_ne hc]
    simp [hc, h.coherent c']

/-- One iteration keeps the invariant and makes progress. -/
lemma Inv.visit (hret : Returnable post returns) (h : Inv post returns a) {queue : List ℕ}
    (hqueue : a.queue = i :: queue) :
    ∃ a', PageAdmission.visit { a with queue := queue } i = .ok a' ∧ Inv post returns a' ∧
      a'.measure < a.measure := by
  obtain ⟨r, hr, hstate⟩ := (h.queue i).mp (by simp [hqueue])
  have hne : r.state ≠ .admitted := by simp [hstate]
  have hnodup := h.nodup
  rw [hqueue, nodup_cons] at hnodup
  have hassert : (r.state == AdmissionState.queued) = true := by simp [hstate]
  have hexpect : expect ({ a with queue := queue } : PageAdmission).returned[i]?
      "index out of bounds" = .ok r := by
    show expect a.returned[i]? _ = _
    rw [hr, expect_some]
  -- the queue after any decision on the popped return
  have hq : ∀ (state : AdmissionState), state ≠ .queued → ∀ j, j ∈ queue ↔
      ∃ r', (a.setState i state).returned[j]? = some r' ∧ r'.state = .queued := by
    intro state hs j
    have hj := h.queue j
    rw [hqueue, mem_cons] at hj
    rw [getElem?_setState]
    by_cases hij : i = j
    · subst hij
      simp only [hnodup.1, false_iff, hr, Option.map_some, if_true]
      rintro ⟨r', hr', hq⟩
      rw [← Option.some.inj hr'] at hq
      exact hs hq
    · simp only [Ne.symm hij, false_or] at hj
      simp only [hij, if_false, Option.map_id', hj]
  unfold PageAdmission.visit
  simp only [hexpect, ok_bind, assert_of hassert]
  cases hmerge : ({ a with queue := queue } : PageAdmission).merges r.extent with
  | false =>
    refine ⟨({ a with queue := queue } : PageAdmission).setState i .pending, by simp,
      ⟨(entries_setState a i .pending).trans h.entries, h.coherent, ?_, hq .pending (by simp), hnodup.2⟩, ?_⟩
    · intro c
      show covered (a.classes c).regions.values =
        (post.list c).bytes ∪ (a.setState i .pending).admittedBytes c
      rw [h.classes c, admittedBytes_eq, admittedBytes_eq, admittedSet_setState hr hne (by simp)]
    · have hcount := countP_setState hr hne .pending
      simp only [reduceCtorEq, if_false, Nat.add_zero] at hcount
      show queue.length + 3 * (a.setState i .pending).returned.countP _ < _
      rw [hcount, PageAdmission.measure, hqueue]
      simp
  | true =>
    obtain ⟨run, index', hins, hcoh, hcov⟩ := (h.coherent r.freeClass).insert
      (h.disjoint hret hr hne r.freeClass)
    simp only [Bool.not_true, Bool.false_eq_true, if_false, hins, ok_bind]
    obtain ⟨b, hb⟩ : ∃ b, b = ({ ({ a with queue := queue } : PageAdmission).setState i .admitted with
        classes := Function.update a.classes r.freeClass index' } : PageAdmission) := ⟨_, rfl⟩
    have hinv : Inv post returns b := by
      rw [hb]
      have hclass := h.update_classes hcoh hcov
      refine ⟨(entries_setState a i .admitted).trans h.entries, fun c => (hclass c).1, ?_,
        hq .admitted (by simp), hnodup.2⟩
      intro c
      rw [admittedBytes_eq]
      show _ = (post.list c).bytes ∪ classEntryBytes c (a.setState i .admitted).admittedSet
      rw [admittedSet_joined hr hne]
      exact (hclass c).2
    have hmeasure : b.measure + 3 < a.measure := by
      have hcount := countP_setState hr hne .admitted
      have hbm : b.measure = queue.length +
          3 * (a.setState i .admitted).returned.countP fun r => decide (r.state ≠ .admitted) := by
        rw [hb]
        rfl
      rw [hbm, PageAdmission.measure, hqueue, ← hcount]
      simp
      omega
    obtain ⟨hinv₁, hm₁⟩ := hinv.requeue
      (b.returned.findIdx? fun entry => entry.extent.stop == run.start)
    obtain ⟨hinv₂, hm₂⟩ := hinv₁.requeue
      (b.returned.findIdx? fun entry => entry.extent.start == run.stop)
    refine ⟨_, rfl, ?_, ?_⟩
    · rw [hb] at hinv₂
      exact hinv₂
    · rw [hb] at hm₁ hm₂ hmeasure
      exact lt_of_le_of_lt hm₂ (by omega)

/-- A further return may be queued. -/
lemma Inv.pushQueued (h : Inv post returns a) (e : Extent) (c : FreeClass) :
    Inv post (returns ++ [(e, c)]) { a with
      returned := a.returned ++ [⟨e, c, .queued⟩]
      queue := a.queue ++ [a.returned.length] } := by
  have hlen : ∀ i ∈ a.queue, i < a.returned.length := by
    intro i hi
    obtain ⟨r, hr, -⟩ := (h.queue i).mp hi
    exact (List.getElem?_eq_some_iff.mp hr).1
  refine ⟨?_, h.coherent, ?_, ?_, ?_⟩
  · rw [map_append, h.entries]
    rfl
  · intro c'
    rw [admittedBytes_eq, admittedSet_concat rfl, if_neg (by simp), ← admittedBytes_eq]
    exact h.classes c'
  · intro i
    simp only [mem_append, mem_singleton, h.queue i, getElem?_concat_eq_some]
    constructor
    · rintro (⟨r, hr, hs⟩ | rfl)
      · exact ⟨r, .inl hr, hs⟩
      · exact ⟨_, .inr ⟨rfl, rfl⟩, rfl⟩
    · rintro ⟨r, hr | ⟨rfl, -⟩, hs⟩
      · exact .inl ⟨r, hr, hs⟩
      · exact .inr rfl
  · show (a.queue ++ [a.returned.length]).Nodup
    rw [nodup_append]
    refine ⟨h.nodup, nodup_singleton _, fun i hi j hj => ?_⟩
    rw [mem_singleton] at hj
    exact hj ▸ (hlen i hi).ne

/-- A further return may be admitted at once, with its bytes in its class. -/
lemma Inv.pushAdmitted (h : Inv post returns a) {e : Extent} (hcoh : index'.Coherent)
    (hcov : covered index'.regions.values = covered (a.classes c).regions.values ∪ e.bytes) :
    Inv post (returns ++ [(e, c)]) { a with
      classes := Function.update a.classes c index'
      returned := a.returned ++ [⟨e, c, .admitted⟩] } := by
  have hclass := h.update_classes hcoh hcov
  refine ⟨?_, fun c' => (hclass c').1, ?_, ?_, h.nodup⟩
  · rw [map_append, h.entries]
    rfl
  · intro c'
    rw [admittedBytes_eq, admittedSet_concat rfl]
    exact (hclass c').2
  · intro i
    rw [h.queue i]
    simp only [getElem?_concat_eq_some]
    constructor
    · rintro ⟨r, hr, hs⟩
      exact ⟨r, .inl hr, hs⟩
    · rintro ⟨r, hr | ⟨-, rfl⟩, hs⟩
      · exact ⟨r, hr, hs⟩
      · cases hs

/-- The invariant holds before the first return. -/
lemma inv_indexed (hcan : post.Canonical) : Inv post [] (indexed post) := by
  refine ⟨rfl, fun c => (ClassIndex.new_spec (hcan c)).1, ?_, by simp [indexed], nodup_nil⟩
  intro c
  show covered (ClassIndex.new (post.list c)).regions.values = _
  rw [(ClassIndex.new_spec (hcan c)).2]
  simp [admittedBytes, indexed, FreeList.bytes]

/-- Four iterations for each return are enough. -/
lemma Inv.measure_le (h : Inv post returns a) : a.measure ≤ 4 * a.returned.length := by
  have hqueue : a.queue.length ≤ a.returned.length := by
    have hsub : a.queue ⊆ range a.returned.length := by
      intro i hi
      obtain ⟨r, hr, -⟩ := (h.queue i).mp hi
      exact List.mem_range.mpr (List.getElem?_eq_some_iff.mp hr).1
    simpa using (List.subperm_of_subset h.nodup hsub).length_le
  have hcount := countP_le_length (p := fun r : PendingReturn => decide (r.state ≠ .admitted))
    (l := a.returned)
  rw [PageAdmission.measure]
  omega

/-- Once nothing is queued, the returns split into the admitted and the dropped ones. -/
lemma Inv.split (h : Inv post returns a) (hqueue : a.queue = []) :
    ∃ taken, returns.Perm (taken ++ a.droppedReturns) ∧
      {x | x ∈ taken} = a.admittedSet := by
  refine ⟨(a.returned.filter fun r => decide (r.state = .admitted)).map entry, ?_, ?_⟩
  · have hpend : (a.returned.filter fun r => !decide (r.state = .admitted)) =
        a.returned.filter fun r => r.state == .pending := by
      apply filter_congr
      intro r hr
      obtain ⟨i, hi⟩ := mem_iff_getElem?.mp hr
      have hnot : r.state ≠ .queued := by
        intro hq
        have := (h.queue i).mpr ⟨r, hi, hq⟩
        simp [hqueue] at this
      cases hs : r.state with
      | admitted => rfl
      | pending => rfl
      | queued => exact absurd hs hnot
    rw [← h.entries]
    have hperm := filter_append_perm (fun r : PendingReturn => decide (r.state = .admitted))
      a.returned
    rw [hpend] at hperm
    have hmap := (hperm.map entry).symm
    rwa [map_append] at hmap
  · ext x
    simp only [admittedSet, Set.mem_ofPred_eq, mem_map, mem_filter, decide_eq_true_eq]
    constructor
    · rintro ⟨r, ⟨hr, hadm⟩, rfl⟩
      obtain ⟨i, hi⟩ := mem_iff_getElem?.mp hr
      exact ⟨i, r, hi, hadm, rfl⟩
    · rintro ⟨i, r, hi, hadm, rfl⟩
      exact ⟨r, ⟨mem_of_getElem? hi, hadm⟩, rfl⟩

end PageAdmission

/-! ## Release into PAGE lists -/

namespace PagedPostFree

open PageAdmission

/-- How a batch of returns splits: the admitted ones join the list of their class. -/
structure Released (post : PagedPostFree) (extents dropped : Returns)
    (post' : PagedPostFree) : Prop where
  pageSize : post'.pageSize = post.pageSize
  unclassified : post'.unclassified = post.unclassified
  canonical : ∀ c, (post'.list c).Canonical
  split : ∃ taken, extents.Perm (taken ++ dropped) ∧
    ∀ c, (post'.list c).bytes = (post.list c).bytes ∪ classBytes c taken

variable {post : PagedPostFree}

/-- Tracking an extent adds its bytes to its class alone. -/
lemma track_spec (hcan : post.Canonical) {e : Extent} (hd : Disjoint (post.list c).bytes e.bytes) :
    ∃ post', post.track e c = .ok post' ∧ Released post [(e, c)] [] post' := by
  obtain ⟨l, hl, hlcan, hbytes⟩ := FreeList.free_spec (hcan c) hd
  have hown : classBytes c [(e, c)] = e.bytes := by
    ext x
    simp [mem_classBytes]
  have hother : ∀ c', c' ≠ c → classBytes c' [(e, c)] = ∅ := by
    intro c' hc'
    ext x
    simp [mem_classBytes, hc']
  -- the lists of the result, once the list of `c` is replaced
  have hres : ∀ post' : PagedPostFree, post'.pageSize = post.pageSize →
      post'.unclassified = post.unclassified → post'.list c = l →
      (∀ c', c' ≠ c → post'.list c' = post.list c') → Released post [(e, c)] [] post' := by
    intro post' hps hun hc hne
    refine ⟨hps, hun, fun c' => ?_, [(e, c)], by simp, fun c' => ?_⟩
    · by_cases hc' : c' = c
      · rw [hc', hc]
        exact hlcan
      · rw [hne c' hc']
        exact hcan c'
    · by_cases hc' : c' = c
      · rw [hc', hc, hbytes, hown]
      · rw [hne c' hc', hother c' hc', Set.union_empty]
  cases c with
  | dead =>
    refine ⟨{ post with dead := l }, ?_, hres _ rfl rfl rfl ?_⟩
    · simp only [track, show post.dead.free e = .ok l from hl, ok_bind]
    · rintro (_ | _ | _) hne <;> first | rfl | exact absurd rfl hne
  | page ty =>
    cases ty with
    | metadata =>
      refine ⟨{ post with metadata := l }, ?_, hres _ rfl rfl rfl ?_⟩
      · simp only [track, show post.metadata.free e = .ok l from hl, ok_bind]
      · rintro (_ | _ | _) hne <;> first | rfl | exact absurd rfl hne
    | raw =>
      refine ⟨{ post with raw := l }, ?_, hres _ rfl rfl rfl ?_⟩
      · simp only [track, show post.raw.free e = .ok l from hl, ok_bind]
      · rintro (_ | _ | _) hne <;> first | rfl | exact absurd rfl hne

/-- A batch ends with the lists of the resolved class indexes. -/
lemma releaseBatch_resolved {threshold : ℕ} {a b : Extent × FreeClass}
    {rest returned : Returns} {adm adm' : PageAdmission}
    (hord : orderedReturns (a :: b :: rest) = .ok returned)
    (hnew : PageAdmission.admitEligible threshold (indexed post) returned = .ok adm)
    (hres : PageAdmission.resolve (4 * adm.returned.length) adm = .ok adm')
    (hinv : Inv post returned adm') :
    ∃ post', post.releaseBatch threshold (a :: b :: rest) = .ok (adm'.droppedReturns, post') ∧
      post'.pageSize = post.pageSize ∧ post'.unclassified = post.unclassified ∧
      post'.Canonical ∧
      ∀ c, (post'.list c).bytes = (post.list c).bytes ∪ adm'.admittedBytes c := by
  obtain ⟨lm, hlm, hcm, hbm⟩ := (hinv.coherent (.page .metadata)).intoList
  obtain ⟨lr, hlr, hcr, hbr⟩ := (hinv.coherent (.page .raw)).intoList
  obtain ⟨ld, hld, hcd, hbd⟩ := (hinv.coherent .dead).intoList
  refine ⟨{ post with metadata := lm, raw := lr, dead := ld }, ?_, rfl, rfl, ?_, ?_⟩
  · simp only [releaseBatch, hord, PageAdmission.new, hnew, ok_bind, PageAdmission.run, hres, hlm,
      hlr, hld]
  · rintro (_ | _ | _)
    · exact hcd
    · exact hcm
    · exact hcr
  · intro c
    rw [← hinv.classes c]
    rcases c with _ | _ | _
    · exact hbd
    · exact hbm
    · exact hbr

/-- The order of the returns does not matter. -/
lemma Returnable.perm {extents returned : Returns} (h : Returnable post extents)
    (hperm : returned.Perm extents) : Returnable post returned :=
  ⟨(hperm.pairwise_iff fun {_ _} h => h.symm).mpr h.disjoint,
    fun r hr => h.tracked r (hperm.subset hr)⟩

end PagedPostFree

end Hdf5Pure.Space
