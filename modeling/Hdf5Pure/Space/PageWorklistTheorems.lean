import Hdf5Pure.Space.PageRuleTheorems

/-!
# The PAGE worklist decides as the admission rule does

The worklist examines a return again only when a run that ends at it has grown. That is enough for
it to admit the least set closed under the PAGE rule.
-/

namespace Hdf5Pure.Space

open Checked IntervalLists Saturation TrackedSpace List

/-! ## Admitted returns -/

variable {j : ℕ} {b : PageAdmission} {index' : ClassIndex} {run : Extent}

/-- The only element that a predicate accepts is the one a search finds. -/
lemma findIdx?_eq_of_unique {α : Type} {p : α → Bool} {l : List α} {a : α} (ha : l[j]? = some a)
    (hp : p a = true) (hunique : ∀ (k : ℕ) (b : α), l[k]? = some b → p b = true → k = j) :
    l.findIdx? p = some j := by
  cases hfind : l.findIdx? p with
  | none =>
    have hnone := findIdx?_eq_none_iff.mp hfind a (mem_of_getElem? ha)
    rw [hp] at hnone
    cases hnone
  | some k =>
    obtain ⟨hlt, hpk, -⟩ := findIdx?_eq_some_iff_getElem.mp hfind
    rw [hunique k l[k] (getElem?_eq_getElem hlt) hpk]

namespace PageAdmission

variable {post : PagedPostFree} {threshold : ℕ} {all returns : Returns}
  {a : PageAdmission}

lemma Inv.covered_eq (h : Inv post returns a) (c : FreeClass) :
    covered (a.classes c).regions.values = post.trackedWith a.admittedSet c := by
  rw [h.classes c, admittedBytes_eq, PagedPostFree.trackedWith]

variable {i : ℕ} {r : PendingReturn}

/-- Returns with a byte in common are at one position. -/
lemma Inv.index_eq (hret : Returnable post returns) (h : Inv post returns a) {r' : PendingReturn}
    (hr : a.returned[i]? = some r) (hr' : a.returned[j]? = some r') {x : ℕ}
    (hx : x ∈ r.extent.bytes) (hx' : x ∈ r'.extent.bytes) : i = j := by
  have hi := h.getElem? hr
  have hj := h.getElem? hr'
  have heq : entry r = entry r' :=
    eq_of_mem_bytes hret.disjoint (List.mem_of_getElem? hi) (List.mem_of_getElem? hj) hx hx'
  exact (List.getElem?_inj (List.getElem?_eq_some_iff.mp hi).1
    (nodup_of_disjoint hret.disjoint)).mp (by rw [hi, hj, heq])

lemma Inv.not_mem_admittedSet (hret : Returnable post returns) (h : Inv post returns a)
    (hr : a.returned[i]? = some r) (hstate : r.state ≠ .admitted) : entry r ∉ a.admittedSet := by
  rintro ⟨j, r', hr', hadm, heq⟩
  have hstart : r.extent.start ∈ r.extent.bytes := ⟨le_rfl, r.extent.start_lt_stop⟩
  have hstart' : r.extent.start ∈ r'.extent.bytes := by
    rw [(Prod.mk.inj heq).1]
    exact hstart
  obtain rfl := h.index_eq hret hr hr' hstart hstart'
  cases hr.symm.trans hr'
  exact hstate hadm

lemma Inv.merges_iff (hret : Returnable post returns) (h : Inv post returns a)
    (hpage : a.pageSize = post.pageSize) (hun : a.unclassified = post.unclassified)
    (hr : a.returned[i]? = some r) (hstate : r.state ≠ .admitted) :
    a.merges r.extent = true ↔ post.near a.admittedSet r.extent := by
  have hclass : ∀ c, (a.classes c).merges r.extent a.pageSize = true ↔
      NearClass post.pageSize.get (post.trackedWith a.admittedSet c) r.extent := by
    intro c
    rw [(h.coherent c).merges_iff, ← h.covered_eq c, hpage,
      nearClass_iff (h.coherent c).separated (h.disjoint hret hr hstate c) post.pageSize_pos]
  have hany : ([.page .metadata, .page .raw, .dead].any fun c =>
      (a.classes c).merges r.extent a.pageSize) = true ↔
      ∃ c, (a.classes c).merges r.extent a.pageSize = true := by
    rw [any_eq_true]
    constructor
    · rintro ⟨c, -, hc⟩
      exact ⟨c, hc⟩
    · rintro ⟨c, hc⟩
      refine ⟨c, ?_, hc⟩
      rcases c with _ | _ | _ <;> simp
  rw [PageAdmission.merges, Bool.or_eq_true, Bool.and_eq_true, decide_eq_true_eq, hany,
    PagedPostFree.near, hpage, hun]
  simp only [← hpage, hclass]

/-- Scheduling changes nothing but a pending state. -/
lemma getElem?_requeue (a : PageAdmission) (neighbor : Option ℕ) (j : ℕ) :
    (a.requeue neighbor).returned[j]? = a.returned[j]?.map fun r =>
      if neighbor = some j ∧ r.state = .pending then { r with state := .queued } else r := by
  cases neighbor with
  | none => simp [requeue]
  | some i =>
    unfold requeue
    dsimp only
    split_ifs with hpend
    · show (a.setState i .queued).returned[j]? = _
      rw [getElem?_setState]
      by_cases hij : i = j
      · subst hij
        cases hr : a.returned[i]? with
        | none => rfl
        | some r =>
          have hstate : r.state = .pending := by simpa [hr] using hpend
          simp [hstate]
      · simp [hij]
    · by_cases hij : i = j
      · subst hij
        cases hr : a.returned[i]? with
        | none => rfl
        | some r =>
          have hstate : ¬ r.state = .pending := by simpa [hr] using hpend
          simp [hstate]
      · simp [hij]

@[simp] lemma requeue_pageSize (a : PageAdmission) (neighbor : Option ℕ) :
    (a.requeue neighbor).pageSize = a.pageSize := by
  unfold requeue
  split
  · rfl
  · split_ifs <;> rfl

@[simp] lemma requeue_unclassified (a : PageAdmission) (neighbor : Option ℕ) :
    (a.requeue neighbor).unclassified = a.unclassified := by
  unfold requeue
  split
  · rfl
  · split_ifs <;> rfl

lemma admittedSet_requeue (a : PageAdmission) (neighbor : Option ℕ) :
    (a.requeue neighbor).admittedSet = a.admittedSet := by
  ext x
  simp only [admittedSet, Set.mem_ofPred_eq, getElem?_requeue, Option.map_eq_some_iff]
  constructor
  · rintro ⟨j, _, ⟨r, hr, rfl⟩, hadm, rfl⟩
    split_ifs at hadm ⊢ with hcond
    exact ⟨j, r, hr, hadm, rfl⟩
  · rintro ⟨j, r, hr, hadm, rfl⟩
    have hnot : ¬ (neighbor = some j ∧ r.state = .pending) := by simp [hadm]
    exact ⟨j, r, ⟨r, hr, if_neg hnot⟩, hadm, rfl⟩

/-! ## The decisions -/

/-- The admitted returns were forced, what is not admitted is short, and no pending return is
eligible. -/
structure Decides (post : PagedPostFree) (threshold : ℕ) (all returns : Returns)
    (a : PageAdmission) : Prop where
  inv : Inv post returns a
  pageSize : a.pageSize = post.pageSize
  unclassified : a.unclassified = post.unclassified
  short : ∀ (i : ℕ) (r : PendingReturn), a.returned[i]? = some r → r.state ≠ .admitted →
    r.extent.len < threshold
  forced : Forced {x | x ∈ all} (Eligible threshold post.near) a.admittedSet
  settled : ∀ (i : ℕ) (r : PendingReturn), a.returned[i]? = some r → r.state = .pending →
    ¬ post.near a.admittedSet r.extent

/-- A state of the entry that was not its state before comes from the change. -/
lemma state_setState {state : AdmissionState} (hr : (a.setState i state).returned[j]? = some r) :
    ∃ r', a.returned[j]? = some r' ∧ r.extent = r'.extent ∧ r.freeClass = r'.freeClass ∧
      r.state = if i = j then state else r'.state := by
  rw [getElem?_setState] at hr
  obtain ⟨r', hr', rfl⟩ := Option.map_eq_some_iff.mp hr
  refine ⟨r', hr', ?_, ?_, ?_⟩ <;> split_ifs <;> rfl

lemma state_requeue {neighbor : Option ℕ} (hr : (a.requeue neighbor).returned[j]? = some r) :
    ∃ r', a.returned[j]? = some r' ∧ r.extent = r'.extent ∧
      (r'.state = .admitted → r.state = .admitted) ∧
      (r.state = .pending → r'.state = .pending ∧ neighbor ≠ some j) := by
  rw [getElem?_requeue] at hr
  obtain ⟨r', hr', rfl⟩ := Option.map_eq_some_iff.mp hr
  refine ⟨r', hr', ?_⟩
  by_cases hqueued : neighbor = some j ∧ r'.state = .pending
  · rw [if_pos hqueued]
    simp [hqueued.2]
  · rw [if_neg hqueued]
    exact ⟨rfl, id, fun hpend => ⟨hpend, fun hj => hqueued ⟨hj, hpend⟩⟩⟩

section

variable (h : Decides post threshold all returns a)

include h

/-- A return that does not merge waits for a neighbour. -/
lemma Decides.wait (hret : Returnable post returns) (hr : a.returned[i]? = some r)
    (hstate : r.state ≠ .admitted) (hmerge : a.merges r.extent = false) (hinv : Inv post returns b)
    (hb : ∃ queue, b = { a.setState i .pending with queue := queue }) :
    Decides post threshold all returns b := by
  obtain ⟨queue, rfl⟩ := hb
  have hset : (a.setState i .pending).admittedSet = a.admittedSet :=
    admittedSet_setState hr hstate (by simp)
  refine ⟨hinv, h.pageSize, h.unclassified, ?_, ?_, ?_⟩
  · intro j s hs hstate'
    obtain ⟨s', hs', hextent, -, hstate''⟩ := state_setState hs
    rw [hextent]
    by_cases hij : i = j
    · subst hij
      cases hr.symm.trans hs'
      exact h.short i r hr hstate
    · rw [if_neg hij] at hstate''
      exact h.short j s' hs' (hstate'' ▸ hstate')
  · show Forced _ _ (a.setState i .pending).admittedSet
    rw [hset]
    exact h.forced
  · intro j s hs hpend
    show ¬ post.near (a.setState i .pending).admittedSet s.extent
    obtain ⟨s', hs', hextent, -, hstate''⟩ := state_setState hs
    rw [hset, hextent]
    by_cases hij : i = j
    · subst hij
      cases hr.symm.trans hs'
      intro hnear
      rw [(h.inv.merges_iff hret h.pageSize h.unclassified hr hstate).mpr hnear] at hmerge
      cases hmerge
    · rw [if_neg hij] at hstate''
      exact h.settled j s' hs' (hstate'' ▸ hpend)

/-- An admission makes only those pending returns eligible that a changed run ends at. -/
lemma Decides.touches_run (hret : Returnable post returns) {s : PendingReturn}
    (hr : a.returned[i]? = some r) (hstate : r.state ≠ .admitted)
    (hins : (a.classes r.freeClass).insert r.extent = .ok (run, index'))
    (hs : a.returned[j]? = some s) (hij : i ≠ j) (hpend : s.state = .pending)
    (hnear : post.near (insert (entry r) a.admittedSet) s.extent) :
    s.extent.stop = run.start ∨ s.extent.start = run.stop := by
  have hsnot : s.state ≠ .admitted := by simp [hpend]
  have hold := h.settled j s hs hpend
  have hclass : ∃ c, NearClass post.pageSize.get
      (post.trackedWith (insert (entry r) a.admittedSet) c) s.extent := by
    rcases hnear with hunclassified | hclass
    · exact absurd (.inl hunclassified) hold
    · exact hclass
  obtain ⟨c, hc⟩ := hclass
  obtain ⟨run₁, index₁, hins₁, hcoh, hcov⟩ := (h.inv.coherent r.freeClass).insert
    (h.inv.disjoint hret hr hstate r.freeClass)
  cases hins.symm.trans hins₁
  obtain ⟨hmem, hin⟩ := ClassIndex.insert_run hins
  rw [h.inv.covered_eq] at hcov
  have hclassEq : c = r.freeClass := by
    -- the other classes are as they were
    by_contra hne
    have hsame : post.trackedWith (insert (entry r) a.admittedSet) c =
        post.trackedWith a.admittedSet c := by
      ext x
      simp [PagedPostFree.trackedWith, classEntryBytes, entry, hne]
    rw [hsame] at hc
    exact hold (.inr ⟨c, hc⟩)
  subst hclassEq
  have hgrown : post.trackedWith (insert (entry r) a.admittedSet) r.freeClass =
      covered index'.regions.values := by
    rw [hcov]
    ext x
    simp only [PagedPostFree.trackedWith, classEntryBytes, entry, Set.mem_union, Set.mem_ofPred_eq,
      Set.mem_insert_iff, Prod.mk.injEq, and_true, or_and_right, exists_or, exists_eq_left, or_assoc]
    exact or_congr_right or_comm
  have hnotAdded : entry s ∉ insert (entry r) a.admittedSet := by
    rintro (heq | hadm)
    · have hstart : s.extent.start ∈ s.extent.bytes := ⟨le_rfl, s.extent.start_lt_stop⟩
      have hstart' : s.extent.start ∈ r.extent.bytes := by
        rw [← (Prod.mk.inj heq).1]
        exact hstart
      exact hij (h.inv.index_eq hret hr hs hstart' hstart)
    · exact h.inv.not_mem_admittedSet hret hs hsnot hadm
  have hsub : insert (entry r) a.admittedSet ⊆ {x | x ∈ returns} := by
    refine Set.insert_subset (mem_of_getElem? (h.inv.getElem? hr)) ?_
    rintro _ ⟨_, _, hr', -, rfl⟩
    exact mem_of_getElem? (h.inv.getElem? hr')
  have hd := PagedPostFree.disjoint_trackedWith hret hsub
    (mem_of_getElem? (h.inv.getElem? hs)) hnotAdded r.freeClass
  rw [hgrown] at hc hd
  exact hc.touches_grown hcoh.separated post.pageSize_pos hcov hmem hin hd
    fun hbefore => hold (.inr ⟨_, hbefore⟩)

/-- A return that merges is admitted, and the pending returns at both ends of its run are queued. -/
lemma Decides.admit (hret : Returnable post returns) (hall : returns ⊆ all)
    (hr : a.returned[i]? = some r) (hstate : r.state ≠ .admitted)
    (hmerge : a.merges r.extent = true)
    (hins : (a.classes r.freeClass).insert r.extent = .ok (run, index')) {a' : PageAdmission}
    (hb : ∃ queue, b = { a.setState i .admitted with
      queue := queue, classes := Function.update a.classes r.freeClass index' })
    (ha' : a' = (b.requeue (b.returned.findIdx? fun entry => entry.extent.stop == run.start)).requeue
      (b.returned.findIdx? fun entry => entry.extent.start == run.stop))
    (hinv : Inv post returns a') : Decides post threshold all returns a' := by
  have hpage : b.pageSize = post.pageSize := by
    obtain ⟨queue, rfl⟩ := hb
    exact h.pageSize
  have hun : b.unclassified = post.unclassified := by
    obtain ⟨queue, rfl⟩ := hb
    exact h.unclassified
  have hbset : b.admittedSet = insert (entry r) a.admittedSet := by
    obtain ⟨queue, rfl⟩ := hb
    exact admittedSet_joined hr hstate
  have hbstate : ∀ (j : ℕ) (s : PendingReturn), b.returned[j]? = some s →
      ∃ s', a.returned[j]? = some s' ∧ s.extent = s'.extent ∧
        s.state = if i = j then .admitted else s'.state := by
    intro j s hs
    obtain ⟨queue, rfl⟩ := hb
    obtain ⟨s', hs', hextent, -, hstate'⟩ := state_setState hs
    exact ⟨s', hs', hextent, hstate'⟩
  have hset : a'.admittedSet = insert (entry r) a.admittedSet := by
    rw [ha', admittedSet_requeue, admittedSet_requeue, hbset]
  have hmem : entry r ∈ all := hall (mem_of_getElem? (h.inv.getElem? hr))
  have hnear := (h.inv.merges_iff hret h.pageSize h.unclassified hr hstate).mp hmerge
  refine ⟨hinv, by rw [ha', requeue_pageSize, requeue_pageSize, hpage],
    by rw [ha', requeue_unclassified, requeue_unclassified, hun], ?_, ?_, ?_⟩
  · intro j s hs hnot
    rw [ha'] at hs
    obtain ⟨s₁, hs₁, hextent₁, hadmitted₁, -⟩ := state_requeue hs
    obtain ⟨s₂, hs₂, hextent₂, hadmitted₂, -⟩ := state_requeue hs₁
    obtain ⟨s₃, hs₃, hextent₃, hstate₃⟩ := hbstate j s₂ hs₂
    rw [hextent₁, hextent₂, hextent₃]
    refine h.short j s₃ hs₃ fun hadm => hnot (hadmitted₁ (hadmitted₂ ?_))
    rw [hstate₃, hadm, ite_self]
  · rw [hset]
    refine h.forced.insert ?_ hmem (.inr hnear)
    intro B hB he
    exact he.imp_right (PagedPostFree.near_mono hB)
  · intro j s hs hpend hnear'
    rw [hset] at hnear'
    rw [ha'] at hs
    obtain ⟨s₁, hs₁, hextent₁, -, hpending₁⟩ := state_requeue hs
    obtain ⟨s₂, hs₂, hextent₂, -, hpending₂⟩ := state_requeue hs₁
    obtain ⟨s₃, hs₃, hextent₃, hstate₃⟩ := hbstate j s₂ hs₂
    -- a return that is pending now was pending and was not found at either end
    obtain ⟨hpend, hright⟩ := hpending₁ hpend
    obtain ⟨hpend, hleft⟩ := hpending₂ hpend
    rw [hpend] at hstate₃
    split_ifs at hstate₃ with hij
    rw [hextent₁, hextent₂, hextent₃] at hnear'
    have hunique : ∀ (p : PendingReturn → Bool) (x : ℕ),
        (∀ t, p t = true → x ∈ t.extent.bytes) → p s₂ = true →
        b.returned.findIdx? p = some j := by
      intro p x hx hp
      refine findIdx?_eq_of_unique hs₂ hp ?_
      intro k t ht hpt
      obtain ⟨t', ht', hextent, -⟩ := hbstate k t ht
      exact h.inv.index_eq hret ht' hs₃ (hextent ▸ hx t hpt) (hextent₃ ▸ hx s₂ hp)
    rcases h.touches_run hret hr hstate hins hs₃ hij hstate₃.symm hnear' with hstop | hstart
    · refine hleft (hunique _ (run.start - 1) ?_ ?_)
      · intro t ht
        have hpos := t.extent.start_lt_stop
        rw [beq_iff_eq] at ht
        exact ⟨by omega, by omega⟩
      · rw [beq_iff_eq, hextent₃, hstop]
    · refine hright (hunique _ run.stop ?_ ?_)
      · intro t ht
        have hpos := t.extent.start_lt_stop
        rw [beq_iff_eq] at ht
        exact ⟨by omega, by omega⟩
      · rw [beq_iff_eq, hextent₃, hstart]

lemma Decides.visit (hret : Returnable post returns)
    (hall : returns ⊆ all) {queue : List ℕ} (hqueue : a.queue = i :: queue) :
    ∃ a', PageAdmission.visit { a with queue := queue } i = .ok a' ∧
      Decides post threshold all returns a' ∧ a'.measure < a.measure := by
  obtain ⟨a', hvisit, hinv, hlt⟩ := h.inv.visit hret hqueue
  refine ⟨a', hvisit, ?_, hlt⟩
  obtain ⟨r, hr, hstate⟩ := (h.inv.queue i).mp (by simp [hqueue])
  have hne : r.state ≠ .admitted := by simp [hstate]
  have hexpect : expect ({ a with queue := queue } : PageAdmission).returned[i]?
      "index out of bounds" = .ok r := by
    show expect a.returned[i]? _ = _
    rw [hr, expect_some]
  have hassert : (r.state == AdmissionState.queued) = true := by simp [hstate]
  unfold PageAdmission.visit at hvisit
  simp only [hexpect, ok_bind, assert_of hassert] at hvisit
  cases hmerge : a.merges r.extent with
  | false =>
    have hmerge' : ({ a with queue := queue } : PageAdmission).merges r.extent = false := hmerge
    rw [hmerge'] at hvisit
    exact h.wait hret hr hne hmerge hinv ⟨queue, (Except.ok.inj hvisit).symm⟩
  | true =>
    have hmerge' : ({ a with queue := queue } : PageAdmission).merges r.extent = true := hmerge
    obtain ⟨run, index', hins, -⟩ := (h.inv.coherent r.freeClass).insert
      (h.inv.disjoint hret hr hne r.freeClass)
    simp only [hmerge', hins, Bool.not_true, Bool.false_eq_true, if_false, ok_bind] at hvisit
    exact h.admit hret hall hr hne hmerge hins ⟨queue, rfl⟩ (Except.ok.inj hvisit).symm hinv

lemma Decides.resolve (hret : Returnable post returns) (hall : returns ⊆ all) (fuel : ℕ) (hfuel : a.measure ≤ fuel) :
    ∃ a', PageAdmission.resolve fuel a = .ok a' ∧ Decides post threshold all returns a' ∧
      a'.queue = [] := by
  induction fuel generalizing a with
  | zero =>
    have hnil : a.queue = [] := by
      rw [PageAdmission.measure] at hfuel
      exact eq_nil_of_length_eq_zero (by omega)
    exact ⟨a, by simp [PageAdmission.resolve, hnil], h, hnil⟩
  | succ fuel ih =>
    cases hqueue : a.queue with
    | nil => exact ⟨a, by simp [PageAdmission.resolve, hqueue], h, hqueue⟩
    | cons i queue =>
      obtain ⟨a₁, hvisit, h₁, hlt⟩ := h.visit hret hall hqueue
      obtain ⟨a', hres, h', hnil⟩ := ih h₁ (by omega)
      exact ⟨a', by simp [PageAdmission.resolve, hqueue, hvisit, hres], h', hnil⟩

/-- A new return is admitted or queued by its length. -/
lemma Decides.push
    (hnone : ∀ (i : ℕ) (r : PendingReturn), a.returned[i]? = some r → r.state ≠ .pending)
    (hinv : Inv post (returns ++ [entry r]) b) (hb : b.returned = a.returned ++ [r])
    (hpage : b.pageSize = a.pageSize) (hun : b.unclassified = a.unclassified) (hmem : entry r ∈ all)
    (hstate : r.state = if threshold ≤ r.extent.len then .admitted else .queued) :
    Decides post threshold all (returns ++ [entry r]) b ∧
      ∀ (i : ℕ) (r : PendingReturn), b.returned[i]? = some r → r.state ≠ .pending := by
  have hold : ∀ (i : ℕ) (r' : PendingReturn), b.returned[i]? = some r' →
      a.returned[i]? = some r' ∨ r = r' := by
    intro i r' hr
    rw [hb] at hr
    exact (getElem?_concat_eq_some.mp hr).imp_right And.right
  have hnext : ∀ (i : ℕ) (r' : PendingReturn), b.returned[i]? = some r' → r'.state ≠ .pending := by
    intro i r' hr
    rcases hold i r' hr with hr | rfl
    · exact hnone i r' hr
    · rw [hstate]
      split_ifs <;> simp
  refine ⟨⟨hinv, hpage.trans h.pageSize, hun.trans h.unclassified, ?_, ?_, ?_⟩, hnext⟩
  · intro i r' hr hnot
    rcases hold i r' hr with hr | rfl
    · exact h.short i r' hr hnot
    · by_contra hle
      exact hnot (hstate.trans (if_pos (not_lt.mp hle)))
  · rw [admittedSet_concat hb]
    by_cases hlen : threshold ≤ r.extent.len
    · rw [if_pos (hstate.trans (if_pos hlen))]
      exact h.forced.insert (fun B hB he => he.imp_right (PagedPostFree.near_mono hB)) hmem
        (.inl hlen)
    · rw [if_neg (by rw [hstate, if_neg hlen]; simp)]
      exact h.forced
  · intro i r' hr hpend
    exact absurd hpend (hnext i r' hr)

/-- The eligible returns are admitted first, while nothing is pending. -/
lemma Decides.admitEligible (rest : Returns)
    (hnone : ∀ (i : ℕ) (r : PendingReturn), a.returned[i]? = some r → r.state ≠ .pending)
    (hret : Returnable post (returns ++ rest)) (hall : returns ++ rest ⊆ all) :
    ∃ a', PageAdmission.admitEligible threshold a rest = .ok a' ∧
      Decides post threshold all (returns ++ rest) a' := by
  induction rest generalizing returns a with
  | nil => exact ⟨a, rfl, by simpa using h⟩
  | cons item rest ih =>
    obtain ⟨e, c⟩ := item
    rw [show returns ++ (e, c) :: rest = (returns ++ [(e, c)]) ++ rest by simp] at hret hall ⊢
    have hret' : Returnable post (returns ++ [(e, c)]) :=
      ⟨(pairwise_append.mp hret.disjoint).1,
        fun r hr => hret.tracked r (mem_append_left _ hr)⟩
    have hmem : (e, c) ∈ all := hall (by simp)
    have hqueued := h.inv.pushQueued e c
    unfold PageAdmission.admitEligible
    split_ifs with hlen
    · -- a return that is not admitted yet is disjoint from the index of its class
      have hd := hqueued.disjoint hret' (i := a.returned.length) (r := ⟨e, c, .queued⟩)
        (by simp) (by simp) c
      obtain ⟨run, index', hins, hcoh, hcov⟩ := (h.inv.coherent c).insert hd
      obtain ⟨hnext, hnone'⟩ := h.push (r := ⟨e, c, .admitted⟩) hnone
        (h.inv.pushAdmitted hcoh hcov) rfl rfl rfl hmem (if_pos hlen).symm
      obtain ⟨a', ha', h'⟩ := ih hnext hnone' hret hall
      exact ⟨a', by simp only [hins, ok_bind, ha'], h'⟩
    · obtain ⟨hnext, hnone'⟩ := h.push (r := ⟨e, c, .queued⟩) hnone hqueued rfl rfl rfl hmem
        (if_neg hlen).symm
      exact ih hnext hnone' hret hall

end

lemma decides_indexed (hcan : post.Canonical) (threshold : ℕ)
    (all : Returns) : Decides post threshold all [] (indexed post) := by
  refine ⟨inv_indexed hcan, rfl, rfl, by simp [indexed], ?_, by simp [indexed]⟩
  have hempty : (indexed post).admittedSet = ∅ := by
    ext x
    simp [admittedSet, indexed]
  rw [hempty]
  exact forced_empty

/-- Once nothing is queued, the admitted returns are the least closed set. -/
lemma Decides.saturated (h : Decides post threshold returns returns a) (hqueue : a.queue = []) :
    Saturated {x | x ∈ returns} (Eligible threshold post.near) a.admittedSet := by
  refine ⟨?_, h.forced⟩
  intro x hx heligible
  have hmem : x ∈ a.returned.map entry := by
    rw [h.inv.entries]
    exact hx
  obtain ⟨r, hr, rfl⟩ := mem_map.mp hmem
  obtain ⟨i, hi⟩ := mem_iff_getElem?.mp hr
  cases hstate : r.state with
  | admitted => exact ⟨i, r, hi, hstate, rfl⟩
  | queued =>
    have hqueued := (h.inv.queue i).mpr ⟨r, hi, hstate⟩
    rw [hqueue] at hqueued
    exact absurd hqueued not_mem_nil
  | pending =>
    rcases heligible with hlong | hnear
    · exact absurd hlong (not_le.mpr (h.short i r hi (by simp [hstate])))
    · exact absurd hnear (h.settled i r hi hstate)

end PageAdmission

/-! ## The worklist and the default batch -/

namespace PagedPostFree

open PageAdmission

variable {post : PagedPostFree} {extents : Returns}

lemma holds_start (hcan : post.Canonical) : post.Holds post [] :=
  ⟨rfl, rfl, hcan, fun c => by simp [trackedWith, classEntryBytes]⟩

/-- The PAGE batch admits the least closed set. -/
lemma releaseBatch_concluded (hcan : post.Canonical) (threshold : ℕ)
    (hret : Returnable post extents) :
    ∃ dropped post' taken, post.releaseBatch threshold extents = .ok (dropped, post') ∧
      Concluded threshold extents post.near post.Holds post' taken dropped := by
  have hstart := holds_start hcan
  match extents with
  | [] => exact ⟨[], post, [], rfl, concluded_nil hstart⟩
  | [(e, c)] =>
    obtain ⟨r, post', taken, hrelease, hconcluded⟩ :=
      release_single (post.follows hret) hstart threshold
    refine ⟨if r = .drop then [(e, c)] else [], post', taken, ?_, hconcluded⟩
    simp only [releaseBatch, release, hrelease, ok_bind]
  | a :: b :: rest =>
    obtain ⟨returned, hord, hperm, -⟩ := orderedReturns_spec hret.disjoint
    have hret' := Returnable.perm hret hperm
    obtain ⟨adm, hnew, h⟩ := (decides_indexed hcan threshold returned).admitEligible returned
      (by simp [indexed]) hret' (List.Subset.refl _)
    obtain ⟨adm', hres, h', hqueue⟩ :=
      h.resolve hret' (List.Subset.refl _) _ h.inv.measure_le
    obtain ⟨taken, hsplit, htaken⟩ := h'.inv.split hqueue
    obtain ⟨post', hbatch, hps, hun, hcan', hbytes⟩ :=
      releaseBatch_resolved hord hnew hres h'.inv
    have hset : {x | x ∈ a :: b :: rest} = {x | x ∈ returned} := by
      ext x
      exact hperm.symm.mem_iff
    refine ⟨adm'.droppedReturns, post', taken, hbatch, hperm.symm.trans hsplit,
      ⟨hps, hun, hcan', fun c => ?_⟩, ?_⟩
    · rw [hbytes c, admittedBytes_eq, htaken]
      rfl
    · rw [hset, htaken]
      exact h'.saturated hqueue

lemma releaseBatch_spec (hcan : post.Canonical) (threshold : ℕ) (hret : Returnable post extents) :
    ∃ dropped post', post.releaseBatch threshold extents = .ok (dropped, post') ∧
      Released post extents dropped post' := by
  obtain ⟨dropped, post', taken, hbatch, hsplit, hholds, -⟩ :=
    releaseBatch_concluded hcan threshold hret
  exact ⟨dropped, post', hbatch, hholds.pageSize, hholds.unclassified, hholds.canonical, taken,
    hsplit, hholds.bytes⟩

lemma list_ext {post₁ post₂ : PagedPostFree} (hps : post₁.pageSize = post₂.pageSize)
    (hun : post₁.unclassified = post₂.unclassified) (hlist : ∀ c, post₁.list c = post₂.list c) :
    post₁ = post₂ := by
  obtain ⟨ps₁, metadata₁, raw₁, dead₁, un₁⟩ := post₁
  have hmetadata := hlist (.page .metadata)
  have hraw := hlist (.page .raw)
  have hdead := hlist .dead
  simp only [list] at hmetadata hraw hdead hps hun
  rw [hps, hun, hmetadata, hraw, hdead]

lemma Holds.unique {post₁ post₂ : PagedPostFree} {taken₁ taken₂ : Returns}
    (h₁ : post.Holds post₁ taken₁) (h₂ : post.Holds post₂ taken₂)
    (htaken : {x | x ∈ taken₂} = {x | x ∈ taken₁}) : post₂ = post₁ := by
  refine list_ext (h₂.pageSize.trans h₁.pageSize.symm)
    (h₂.unclassified.trans h₁.unclassified.symm) fun c => ?_
  exact (h₂.canonical c).eq_of_bytes_eq (h₁.canonical c) (by rw [h₁.bytes c, h₂.bytes c, htaken])

/-- The worklist of `PagedPostFree` and the repeated passes of the default batch end with the same
lists and drop the same returns, whatever the order of the batch. -/
theorem page_batch_eq_default (post : PagedPostFree) (hcan : ∀ c, (post.list c).Canonical)
    (threshold : ℕ) (extents : Returns) (hret : Returnable post extents) :
    ∃ post' dropped, ∀ extents', extents'.Perm extents →
      (∃ d, post.releaseBatch threshold extents' = .ok (d, post') ∧ d.Perm dropped) ∧
      ∃ d, releaseEach post threshold extents' = .ok (d, post') ∧ d.Perm dropped := by
  obtain ⟨dropped, post', taken, -, hbatch⟩ := releaseBatch_concluded hcan threshold hret
  have hnodup := nodup_of_disjoint hret.disjoint
  refine ⟨post', dropped, ?_⟩
  intro extents' hperm
  have hret' := Returnable.perm hret hperm
  constructor
  · obtain ⟨dropped₂, post₂, taken₂, hrun, hbatch₂⟩ := releaseBatch_concluded hcan threshold hret'
    obtain ⟨rfl, hdropped⟩ :=
      hbatch.unique hbatch₂ hperm hnodup (hbatch.holds.unique hbatch₂.holds)
    exact ⟨dropped₂, hrun, hdropped⟩
  · obtain ⟨dropped₂, post₂, taken₂, heach, hbatch₂⟩ :=
      releaseEach_spec (post.follows hret') (nodup_of_disjoint hret'.disjoint) (holds_start hcan)
        threshold
    obtain ⟨rfl, hdropped⟩ :=
      hbatch.unique hbatch₂ hperm hnodup (hbatch.holds.unique hbatch₂.holds)
    exact ⟨dropped₂, heach, hdropped⟩

/-- A page of 512 bytes with tracked metadata at its start. The raw return after it merges into the
page, and the metadata return after that into the raw one. -/
theorem page_batch_eq_default_chain :
    ∃ d, (⟨⟨512, by decide, by decide⟩, ⟨[⟨0, 100, by decide, by decide⟩], 100⟩, .new, .new, .new⟩ :
        PagedPostFree).releaseBatch 64
        [(⟨120, 10, by decide, by decide⟩, .page .metadata), (⟨900, 5, by decide, by decide⟩, .dead),
          (⟨100, 20, by decide, by decide⟩, .page .raw)] =
        .ok (d, ⟨⟨512, by decide, by decide⟩,
          ⟨[⟨0, 100, by decide, by decide⟩, ⟨120, 10, by decide, by decide⟩], 110⟩,
          ⟨[⟨100, 20, by decide, by decide⟩], 20⟩, .new, .new⟩) ∧
      d.Perm [(⟨900, 5, by decide, by decide⟩, .dead)] := by
  obtain ⟨post', dropped, hall⟩ := page_batch_eq_default
    ⟨⟨512, by decide, by decide⟩, ⟨[⟨0, 100, by decide, by decide⟩], 100⟩, .new, .new, .new⟩
    (by
      rintro (_ | _ | _)
      · exact FreeList.canonical_new
      · exact ⟨separated_singleton, rfl⟩
      · exact FreeList.canonical_new) 64
    [(⟨120, 10, by decide, by decide⟩, .page .metadata), (⟨900, 5, by decide, by decide⟩, .dead),
      (⟨100, 20, by decide, by decide⟩, .page .raw)]
    ⟨by simp [Extent.disjoint_iff, Extent.stop], by
      rintro r hr (_ | _ | _)
      · simp [list]
      · revert r
        simp [list, FreeList.bytes, Extent.disjoint_iff, Extent.stop]
      · simp [list]⟩
  obtain ⟨⟨d, hbatch, hdropped⟩, d', heach, hdropped'⟩ := hall _ (List.Perm.refl _)
  -- the passes of the default batch can be evaluated
  cases heach
  exact ⟨d, hbatch, hdropped.trans hdropped'.symm⟩

end PagedPostFree

end Hdf5Pure.Space
