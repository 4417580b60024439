import Hdf5Pure.Heap.CompactionTheorems
import Hdf5Pure.Heap.FileImages

/-!
# Compaction after publication

The collections of a batch are packed one after the other. A failure leaves those before it packed
and those after it alone, and restores the one it was met in if the allocations stay available. If
they do not, pending writes are discarded.
-/

namespace Hdf5Pure.Heap

open Edit (Error)
open WriteEngine

variable {ι : Type} {img : FileImage ι}

/-! ## Discarded writes -/

/-- The journal is as before, and so are the bytes outside `R` that were issued. -/
structure Kept (img : FileImage ι) (e₀ : WriteEngine ι) (R : ℕ → Prop) (e : WriteEngine ι) :
    Prop where
  journal : e.inplaceUndo = e₀.inplaceUndo
  length : (img.content e.image).length = (img.content e₀.image).length
  outside : ∀ p, ¬ R p → img.Issued e₀.image p →
    img.Issued e.image p ∧ (img.content e.image)[p]? = (img.content e₀.image)[p]?

section Kept

variable {e₀ e e₁ : WriteEngine ι} {R : ℕ → Prop}

lemma Confined.kept (h : Confined img e₀ R e) : Kept img e₀ R e where
  journal := by rw [h.frame]
  length := h.length
  outside p hp hi := ⟨h.issued p hp hi, h.outside p hp⟩

lemma Completed.kept (h : Completed img e₀ (img.content e₀.image) e) : Kept img e₀ R e where
  journal := by rw [h.frame]
  length := by rw [h.content]
  outside p _ hi := ⟨h.issued p hi, by rw [h.content]⟩

lemma Completed.trans {c c' : Bytes} (h : Completed img e₀ c e)
    (h' : Completed img e c' e₁) : Completed img e₀ c' e₁ where
  frame := by rw [h'.frame, h.frame]
  sound := h'.sound
  content := h'.content
  issued p hi := h'.issued p (h.issued p hi)

lemma Kept.makeAllocationUncertain (hlaw : img.Lawful) (h : Kept img e₀ R e) :
    Kept img e₀ R (e.makeAllocationUncertain img) where
  journal := h.journal
  length := (hlaw.discard_length _).trans h.length
  outside p hp hi := by
    obtain ⟨hissued, hsame⟩ := h.outside p hp hi
    obtain ⟨hissued', hsame'⟩ := hlaw.discard_issued hissued
    exact ⟨hissued', hsame'.trans hsame⟩

end Kept

/-! ## Batches -/

variable {s : WriteEngine ι} {error : Error}

namespace PlannedCompaction

variable {content : Bytes}

def Within (q : PlannedCompaction content) (p : ℕ) : Prop := q.range.start ≤ p ∧ p < q.range.stop

def Apart (q q' : PlannedCompaction content) : Prop := ∀ p, q.Within p → ¬ q'.Within p

def packedAll (plans : List (PlannedCompaction content)) (bytes : Bytes) : Bytes :=
  plans.foldl (fun bytes q => q.packed bytes) bytes

/-- Bytes as long as those the plans were made from, and the same in their collections. -/
structure Fresh (plans : List (PlannedCompaction content)) (bytes : Bytes) : Prop where
  length : bytes.length = content.length
  agree : ∀ q ∈ plans, ∀ p, q.Within p → bytes[p]? = content[p]?
  apart : plans.Pairwise Apart

def Fit (plans : List (PlannedCompaction content)) : Prop :=
  ∀ q ∈ plans, q.range.stop ≤ content.length

lemma Fresh.packed {q : PlannedCompaction content} {plans : List (PlannedCompaction content)}
    {bytes : Bytes} (h : Fresh (q :: plans) bytes) (hfits : q.range.stop ≤ content.length) :
    Fresh plans (q.packed bytes) := by
  obtain ⟨hq, hplans⟩ := List.pairwise_cons.mp h.apart
  refine ⟨length_packed h.length hfits, fun q' hq' p hp => ?_, hplans⟩
  have hout : ¬ q.Within p := fun hin => hq q' hq' p hin hp
  unfold Within at hout
  rw [packed_outside h.length hfits (by omega)]
  exact h.agree q' (by simp [hq']) p hp

/-- **The packed form of each collection.** It stands at its positions whatever the others do, and no
other byte changes. -/
theorem packedAll_spec {plans : List (PlannedCompaction content)} {bytes : Bytes}
    (hfresh : Fresh plans bytes) (hfit : Fit plans) :
    (∀ q ∈ plans, ∀ p, q.Within p → (packedAll plans bytes)[p]? = (q.packed content)[p]?) ∧
    (∀ p, (∀ q ∈ plans, ¬ q.Within p) → (packedAll plans bytes)[p]? = bytes[p]?) := by
  induction plans generalizing bytes with
  | nil => exact ⟨by simp, fun _ _ => rfl⟩
  | cons q plans ih =>
    obtain ⟨hq, hfit'⟩ := List.forall_mem_cons.mp hfit
    obtain ⟨hin, hout⟩ := ih (hfresh.packed hq) hfit'
    have hcons : packedAll (q :: plans) bytes = packedAll plans (q.packed bytes) := rfl
    rw [hcons]
    refine ⟨fun q' hq' p hp => ?_, fun p hp => ?_⟩
    · rcases List.mem_cons.mp hq' with rfl | hq'
      · have hapart := (List.pairwise_cons.mp hfresh.apart).1
        rw [hout p fun q' hq' => hapart q' hq' p hp]
        exact packed_congr hfresh.length hq (hfresh.agree q' (by simp) p hp)
      · exact hin q' hq' p hp
    · have hnot : ¬ q.Within p := hp q (by simp)
      rw [hout p fun q' hq' => hp q' (by simp [hq'])]
      unfold Within at hnot
      exact packed_outside hfresh.length hq (by omega)

variable {q : PlannedCompaction content} {plans : List (PlannedCompaction content)}

variable {e : WriteEngine ι}

/-- What a plan needs of an engine on a reliable image: confirmed allocations, and the collection
below the published end and within the bytes. -/
def Granted (q : PlannedCompaction content) (stop : ℕ) (e : WriteEngine ι) : Prop :=
  e.allocations = .confirmed ∧ q.range.stop ≤ stop ∧ q.range.stop ≤ content.length

/-- **One plan of a published batch.** -/
theorem compactPublished_spec (hlaw : img.Lawful) (hs : img.Sound e.image)
    (hfresh : Fresh (q :: plans) (img.content e.image)) (stop : ℕ) :
    (∀ s, compactPublished img stop q.plan e = (.ok (), s) →
      Completed img e (q.packed (img.content e.image)) s ∧ q.range.stop ≤ content.length) ∧
    (∀ error s, compactPublished img stop q.plan e = (.error error, s) → Kept img e q.Within s ∧
      (s.allocations = .uncertain ∨ Completed img e (img.content e.image) s) ∧
      (img.Reliable → ¬ q.Granted stop e)) := by
  have hself : Completed img e (img.content e.image) e := ⟨rfl, hs, rfl, fun _ h => h⟩
  have happly : (apply img q.plan).Holds (RecordedAs img e q.Within (img.content e.image))
      (fun _ s => RecordedAs img e q.Within (q.packed (img.content e.image)) s ∧
        q.range.stop ≤ content.length) (Refused img e q.Within (q.Granted stop e)) :=
    apply_holds hlaw (fun p hlow hhigh => ⟨hlow, hhigh⟩) hfresh.length
      (fun p hlow hhigh => hfresh.agree q (by simp) p ⟨hlow, hhigh⟩) (fun hgranted => hgranted.2.2)
  unfold compactPublished
  cases hbefore : e.allocations.beforeReference with
  | error error =>
    refine ⟨fun s h => ?_, fun error s h => ?_⟩
    · cases h
    · cases h
      refine ⟨hself.kept.makeAllocationUncertain hlaw, .inl rfl, fun _ hgranted => ?_⟩
      rw [hgranted.1] at hbefore
      cases hbefore
  | ok _ =>
    by_cases hstop : stop < q.plan.collection.stop
    · rw [if_pos hstop]
      refine ⟨fun s h => ?_, fun error s h => ?_⟩
      · cases h
      · cases h
        refine ⟨hself.kept, .inr hself, fun _ hgranted => ?_⟩
        rw [(GlobalHeapMembers.compact_eq_ok q.compacted).1] at hstop
        exact absurd hgranted.2.1 (Nat.not_le.mpr hstop)
    · rw [if_neg hstop]
      obtain ⟨hok, herr⟩ := runIssued_spec hlaw hs happly
      refine ⟨hok, fun error s h => ?_⟩
      obtain ⟨hfailed, hrefused⟩ := herr error s h
      cases hfailed with
      | restored hrestored => exact ⟨hrestored.kept, .inr hrestored, hrefused⟩
      | uncertain hconfined =>
        exact ⟨hconfined.kept.makeAllocationUncertain hlaw, .inl rfl, hrefused⟩

/-- What a batch that fails at plan `k` leaves: the journal and the length as before, the bytes with
the collections before `k` packed if the allocations stay available, and always so outside
collection `k` where nothing was pending. -/
structure BatchFailed (img : FileImage ι) (e : WriteEngine ι)
    (plans : List (PlannedCompaction content)) (k : ℕ) (state : HeapMutationState)
    (s : WriteEngine ι) : Prop where
  completed : k < plans.length
  fit : Fit (plans.take k)
  journal : s.inplaceUndo = e.inplaceUndo
  length : (img.content s.image).length = (img.content e.image).length
  restored : state = .restored →
    img.content s.image = packedAll (plans.take k) (img.content e.image)
  outside : ∀ q, plans[k]? = some q → ∀ p, ¬ q.Within p → img.Issued e.image p →
    (img.content s.image)[p]? = (packedAll (plans.take k) (img.content e.image))[p]?

/-- The state that a failure reports is `restored` only if the allocations are available. -/
lemma batchFailed_first (hlaw : img.Lawful) (hkept : Kept img e q.Within s)
    (hcases : s.allocations = .uncertain ∨ Completed img e (img.content e.image) s) :
    BatchFailed img e (q :: plans) 0
      (match (if isUncertain error then s.makeAllocationUncertain img else s).allocations.available
        with
        | .ok () => .restored
        | .error _ => .uncertain)
      (if isUncertain error then s.makeAllocationUncertain img else s) := by
  have hkept' : Kept img e q.Within
      (if isUncertain error then s.makeAllocationUncertain img else s) := by
    split
    · exact hkept.makeAllocationUncertain hlaw
    · exact hkept
  refine ⟨by simp, by simp [Fit], hkept'.journal, hkept'.length, fun hstate => ?_, fun q' hq' p hp hi => ?_⟩
  · by_cases huncertain : isUncertain error = true
    · rw [if_pos huncertain] at hstate
      cases hstate
    · rw [if_neg huncertain] at hstate ⊢
      rcases hcases with hs | hs
      · rw [hs] at hstate
        cases hstate
      · exact hs.content
  · cases hq'
    exact (hkept'.outside p hp hi).2

/-- **The plans of a published batch**, by induction over the plans that remain. -/
theorem publishedBatch_spec (hlaw : img.Lawful) (stop : ℕ) :
    ∀ {plans : List (PlannedCompaction content)} {completed : ℕ} {e : WriteEngine ι},
      img.Sound e.image → Fresh plans (img.content e.image) →
      (∀ s, publishedBatch img stop completed (plans.map plan) e = (.ok (), s) →
        Completed img e (packedAll plans (img.content e.image)) s ∧ Fit plans) ∧
      (∀ f s, publishedBatch img stop completed (plans.map plan) e = (.error f, s) →
        ∃ k, f.completed = completed + k ∧ BatchFailed img e plans k f.state s) := by
  intro plans
  induction plans with
  | nil =>
    intro completed e hs _
    refine ⟨fun s h => ?_, fun f s h => ?_⟩
    · cases h
      exact ⟨⟨rfl, hs, rfl, fun _ h => h⟩, by simp [Fit]⟩
    · cases h
  | cons q plans ih =>
    intro completed e hs hfresh
    obtain ⟨hok, herr⟩ := compactPublished_spec hlaw hs hfresh stop
    rw [List.map_cons]
    unfold publishedBatch
    rcases hrun : compactPublished img stop q.plan e with ⟨error | _, e₁⟩
    · -- the first plan fails
      obtain ⟨hkept, hcases, -⟩ := herr error e₁ hrun
      refine ⟨fun s h => ?_, fun f s h => ?_⟩
      · cases h
      · cases h
        exact ⟨0, rfl, batchFailed_first hlaw hkept hcases⟩
    · obtain ⟨hcompleted, hfits⟩ := hok e₁ hrun
      have hfresh₁ : Fresh plans (img.content e₁.image) := by
        rw [hcompleted.content]
        exact hfresh.packed hfits
      obtain ⟨hrest, hfail⟩ := @ih (completed + 1) e₁ hcompleted.sound hfresh₁
      refine ⟨fun s h => ?_, fun f s h => ?_⟩
      · obtain ⟨hdone, hfit⟩ := hrest s h
        replace hdone := hcompleted.trans hdone
        rw [hcompleted.content] at hdone
        exact ⟨hdone, List.forall_mem_cons.mpr ⟨hfits, hfit⟩⟩
      · obtain ⟨k, hk, hbatch⟩ := hfail f s h
        refine ⟨k + 1, by omega, ?_⟩
        have hstart : packedAll ((q :: plans).take (k + 1)) (img.content e.image) =
            packedAll (plans.take k) (img.content e₁.image) := by
          rw [hcompleted.content]
          rfl
        refine ⟨?_, List.forall_mem_cons.mpr ⟨hfits, hbatch.fit⟩, ?_, ?_, fun h => ?_,
          fun q' hq' p hp hi => ?_⟩
        · rw [List.length_cons]
          exact Nat.succ_lt_succ hbatch.completed
        · rw [hbatch.journal, hcompleted.frame]
        · rw [hbatch.length, hfresh₁.length, hfresh.length]
        · rw [hbatch.restored h, hstart]
        · rw [hstart]
          exact hbatch.outside q' hq' p hp (hcompleted.issued p hi)

/-- **A batch on a reliable image succeeds**, if its plans are granted what they need. -/
theorem publishedBatch_succeeds (hlaw : img.Lawful) (hrel : img.Reliable) (stop : ℕ) :
    ∀ {plans : List (PlannedCompaction content)} (completed : ℕ) {e : WriteEngine ι},
      img.Sound e.image → Fresh plans (img.content e.image) → (∀ q ∈ plans, q.Granted stop e) →
      ∃ s, publishedBatch img stop completed (plans.map plan) e = (.ok (), s) := by
  intro plans
  induction plans with
  | nil => exact fun _ e _ _ _ => ⟨e, rfl⟩
  | cons q plans ih =>
    intro completed e hs hfresh hgranted
    obtain ⟨hfirst, hrest⟩ := List.forall_mem_cons.mp hgranted
    obtain ⟨hok, herr⟩ := compactPublished_spec hlaw hs hfresh stop
    rw [List.map_cons]
    unfold publishedBatch
    rcases hrun : compactPublished img stop q.plan e with ⟨error | _, e₁⟩
    · exact absurd hfirst ((herr error e₁ hrun).2.2 hrel)
    · obtain ⟨hdone, hfits⟩ := hok e₁ hrun
      apply ih (completed + 1) hdone.sound
      · rw [hdone.content]
        exact hfresh.packed hfits
      · -- a completed plan leaves the allocations as they were
        intro q' hq'
        rw [hdone.frame]
        exact hrest q' hq'

lemma applyAll_holds (hlaw : img.Lawful) {e₀ : WriteEngine ι} :
    ∀ {plans : List (PlannedCompaction content)} {bytes : Bytes}, Fresh plans bytes →
      (applyAll img (plans.map plan)).Holds (RecordedAs img e₀ (fun _ => True) bytes)
        (fun _ s => RecordedAs img e₀ (fun _ => True) (packedAll plans bytes) s ∧ True)
        (Refused img e₀ (fun _ => True) False) := by
  intro plans
  induction plans with
  | nil => exact fun _ => Fallible.Holds.pure fun _ h => ⟨h, trivial⟩
  | cons q plans ih =>
    intro bytes hfresh
    have happly : (apply img q.plan).Holds (RecordedAs img e₀ (fun _ => True) bytes)
        (fun _ s => RecordedAs img e₀ (fun _ => True) (q.packed bytes) s ∧
          q.range.stop ≤ content.length) (Refused img e₀ (fun _ => True) False) :=
      apply_holds hlaw (fun _ _ _ => trivial) hfresh.length
        (fun p hlow hhigh => hfresh.agree q (by simp) p ⟨hlow, hhigh⟩) False.elim
    apply happly.bind
    intro _
    apply Fallible.Holds.of_and
    intro hfits
    exact ih (hfresh.packed hfits)

/-- The plans made from the bytes of an image are fresh for it. -/
lemma fresh_self (hapart : plans.Pairwise Apart) : Fresh plans content :=
  ⟨rfl, fun _ _ _ _ => rfl, hapart⟩

/-- A failed unpublished operation restores the bytes, or is partly applied. -/
lemma rootless_spec (hlaw : img.Lawful) (hs : img.Sound e.image)
    {plans : List (PlannedCompaction (img.content e.image))} (hapart : plans.Pairwise Apart)
    (hjournal : e.inplaceUndo = []) (h : rootless img (plans.map plan) e = (.error error, s))
    (hwhole : ∀ refusal restore, error ≠ .commitPartiallyApplied refusal restore) :
    img.content s.image = img.content e.image := by
  unfold rootless at h
  cases hbefore : e.allocations.beforeReference with
  | error error =>
    rw [hbefore] at h
    cases h
    rfl
  | ok _ =>
    rw [hbefore] at h
    have hfail := runRootless_spec hlaw hs
      (applyAll_holds hlaw (fresh_self hapart)) hjournal
    cases hfail error s h with
    | restored hrestored => exact hrestored.content
    | uncertain _ => exact absurd rfl (hwhole _ _)

lemma copyRecord_planned (hlaw : img.Lawful) (hs : img.Sound e.image)
    {movement : GlobalHeapMove} (hmove : movement ∈ q.plan.moves)
    (h : copyRecord img q.plan.collection movement.object.range movement.destination
      movement.object.range.length 0 e = (.ok (), s)) :
    img.content s.image = patch (img.content e.image) movement.destination.start
      (slice (img.content e.image) movement.object.range.start movement.object.range.length) := by
  obtain ⟨-, removed, stop, hpack, -⟩ := GlobalHeapMembers.compact_eq_ok q.compacted
  have hle := (hpack.towards framed.chained le_rfl movement hmove).2.1.le
  have hcopy : (copyRecord img q.plan.collection movement.object.range movement.destination
      movement.object.range.length 0).Holds
      (RecordedAs img e (fun _ => True) (img.content e.image)) _ _ :=
    copyRecord_whole hlaw (fun _ _ _ => trivial) hle False.elim
  exact ((hcopy e (recordedAs_self hs)).1 () s h).2

/-- If a batch that has restored the collection it failed in leaves all collections packed, then the
plans from there on change nothing. -/
lemma BatchFailed.unchanged {plans : List (PlannedCompaction (img.content e.image))} {k : ℕ}
    {state : HeapMutationState} (hapart : plans.Pairwise Apart)
    (h : BatchFailed img e plans k state s) (hstate : state = .restored)
    (hpacked : ∀ q ∈ plans, ∀ p, q.Within p →
      (img.content s.image)[p]? = (q.packed (img.content e.image))[p]?) :
    ∀ q ∈ plans.drop k, ∀ p, q.Within p →
      (q.packed (img.content e.image))[p]? = (img.content e.image)[p]? := by
  intro q hq p hp
  have hsplit := hapart
  rw [← List.take_append_drop k plans] at hsplit
  obtain ⟨hbefore, -, hbetween⟩ := List.pairwise_append.mp hsplit
  rw [← hpacked q (List.mem_of_mem_drop hq) p hp, h.restored hstate]
  exact (packedAll_spec (fresh_self hbefore) h.fit).2 p fun q' hq' hp' => hbetween q' hq' q hq p hp' hp

/-- **Compaction in place is exact and fails collection by collection.** A call that succeeds leaves
every collection packed, and one on a reliable image succeeds. A call that fails and leaves every
collection packed has made the allocations uncertain, or had nothing left to change. -/
theorem compaction_exact (hlaw : img.Lawful) {e : WriteEngine ι} (hs : img.Sound e.image)
    {plans : List (PlannedCompaction (img.content e.image))} (hapart : plans.Pairwise Apart)
    (stop : ℕ) :
    (∀ s, afterPublication img stop (plans.map plan) e = (.ok (), s) →
      s.inplaceUndo = e.inplaceUndo ∧
      img.content s.image = packedAll plans (img.content e.image) ∧
      (∀ q ∈ plans, ∀ p, q.Within p →
        (img.content s.image)[p]? = (q.packed (img.content e.image))[p]?) ∧
      (∀ p, (∀ q ∈ plans, ¬ q.Within p) →
        (img.content s.image)[p]? = (img.content e.image)[p]?)) ∧
    (∀ f s, afterPublication img stop (plans.map plan) e = (.error f, s) →
      BatchFailed img e plans f.completed f.state s ∧
      ((∀ q ∈ plans, ∀ p, q.Within p →
          (img.content s.image)[p]? = (q.packed (img.content e.image))[p]?) →
        f.state = .uncertain ∨ ∀ q ∈ plans.drop f.completed, ∀ p, q.Within p →
          (q.packed (img.content e.image))[p]? = (img.content e.image)[p]?)) ∧
    (img.Reliable → (∀ q ∈ plans, q.Granted stop e) →
      ∃ s, afterPublication img stop (plans.map plan) e = (.ok (), s)) ∧
    (∀ error s, e.inplaceUndo = [] → rootless img (plans.map plan) e = (.error error, s) →
      (∀ refusal restore, error ≠ .commitPartiallyApplied refusal restore) →
      img.content s.image = img.content e.image) ∧
    (∀ q ∈ plans, ∀ movement ∈ q.plan.moves, ∀ s,
      copyRecord img q.plan.collection movement.object.range movement.destination
        movement.object.range.length 0 e = (.ok (), s) →
      img.content s.image = patch (img.content e.image) movement.destination.start
        (slice (img.content e.image) movement.object.range.start
          movement.object.range.length)) := by
  have hfresh := fresh_self hapart
  obtain ⟨hok, herr⟩ := @publishedBatch_spec _ _ _ hlaw stop plans 0 e hs hfresh
  refine ⟨fun s h => ?_, fun f s h => ?_,
    fun hrel => publishedBatch_succeeds hlaw hrel stop 0 hs hfresh,
    fun error s hjournal h hwhole => ?_, fun q _ movement hmove s h => ?_⟩
  · obtain ⟨hdone, hfit⟩ := hok s h
    have hpacked := packedAll_spec hfresh hfit
    rw [← hdone.content] at hpacked
    exact ⟨by rw [hdone.frame], hdone.content, hpacked⟩
  · obtain ⟨k, hk, hfailed⟩ := herr f s h
    rw [hk, Nat.zero_add]
    refine ⟨hfailed, fun hpacked => ?_⟩
    cases hstate : f.state with
    | uncertain => exact .inl rfl
    | restored => exact .inr (hfailed.unchanged hapart hstate hpacked)
  · exact rootless_spec hlaw hs hapart hjournal h hwhole
  · exact copyRecord_planned hlaw hs hmove h

end PlannedCompaction

/-! ## Two collections -/

def collectionBytes : Bytes :=
  gcolSignature ++ [1, 0, 0, 0, 0, 16, 0, 0, 0, 0, 0, 0] ++
    [1, 0, 0, 0, 0, 0, 0, 0, 8, 0, 0, 0, 0, 0, 0, 0, 1, 2, 3, 4, 5, 6, 7, 8] ++
    [0, 0, 0, 0, 0, 0, 0, 0, 216, 15, 0, 0, 0, 0, 0, 0] ++ List.replicate 4040 0 ++ [7]

def twoCollections : Bytes :=
  gcolSignature ++ [1, 0, 0, 0, 0, 16, 0, 0, 0, 0, 0, 0] ++
    [1, 0, 0, 0, 0, 0, 0, 0, 8, 0, 0, 0, 0, 0, 0, 0, 1, 2, 3, 4, 5, 6, 7, 8] ++
    [2, 0, 0, 0, 0, 0, 0, 0, 2, 0, 0, 0, 0, 0, 0, 0, 9, 9, 0, 0, 0, 0, 0, 0] ++
    [3, 0, 0, 0, 0, 0, 0, 0, 9, 0, 0, 0, 0, 0, 0, 0, 1, 2, 3, 4, 5, 6, 7, 8, 9, 0, 0, 0, 0, 0, 0, 0] ++
    [0, 0, 0, 0, 0, 0, 0, 0, 160, 15, 0, 0, 0, 0, 0, 0] ++ List.replicate 3984 0 ++ collectionBytes

/-- The plan that removes the second of three objects. The third moves over it and over itself. -/
def middleRemoval : PlannedCompaction twoCollections where
  address := 0
  lengths := .eight
  remove object := object.index = 2
  members := ⟨⟨⟨0, 4096, by decide⟩, .eight, ⟨16, 16, by decide⟩⟩,
    [⟨1, 0, ⟨16, 24, by decide⟩, ⟨32, 8, by decide⟩⟩,
      ⟨2, 0, ⟨40, 24, by decide⟩, ⟨56, 2, by decide⟩⟩,
      ⟨3, 0, ⟨64, 32, by decide⟩, ⟨80, 9, by decide⟩⟩]⟩
  plan := ⟨⟨0, 4096, by decide⟩,
    [⟨⟨3, 0, ⟨64, 32, by decide⟩, ⟨80, 9, by decide⟩⟩, ⟨40, 32, by decide⟩⟩],
    some ⟨⟨72, 4024, by decide⟩, ⟨72, 16, by decide⟩,
      [0, 0, 0, 0, 0, 0, 0, 0, 184, 15, 0, 0, 0, 0, 0, 0]⟩, 2⟩
  collected := by decide +kernel
  compacted := by decide +kernel

def secondRemoval : PlannedCompaction twoCollections where
  address := 4096
  lengths := .eight
  remove _ := true
  members := ⟨⟨⟨4096, 4096, by decide⟩, .eight, ⟨4112, 16, by decide⟩⟩,
    [⟨1, 0, ⟨4112, 24, by decide⟩, ⟨4128, 8, by decide⟩⟩]⟩
  plan := ⟨⟨4096, 4096, by decide⟩, [], some ⟨⟨4112, 4080, by decide⟩, ⟨4112, 16, by decide⟩,
    [0, 0, 0, 0, 0, 0, 0, 0, 240, 15, 0, 0, 0, 0, 0, 0]⟩, 0⟩
  collected := by decide +kernel
  compacted := by decide +kernel

def mirrorEngine : WriteEngine Image.MirrorImage where
  image := .new twoCollections
  inplaceUndo := []
  allocations := .confirmed
  publicationAttempted := false
  syncPolicy := .always

open PlannedCompaction in
theorem compaction_exact_two :
    ∃ s, afterPublication (Image.MirrorImage.fileImage false) 8192
        [middleRemoval.plan, secondRemoval.plan] mirrorEngine = (.ok (), s) ∧
      s.image.data = packedAll [middleRemoval, secondRemoval] twoCollections ∧
      slice s.image.data 40 48 =
        [3, 0, 0, 0, 0, 0, 0, 0, 9, 0, 0, 0, 0, 0, 0, 0, 1, 2, 3, 4, 5, 6, 7, 8, 9, 0, 0, 0, 0, 0, 0, 0,
          0, 0, 0, 0, 0, 0, 0, 0, 184, 15, 0, 0, 0, 0, 0, 0] := by
  have hlen : twoCollections.length = 8193 := by decide +kernel
  have hapart : [middleRemoval, secondRemoval].Pairwise Apart := by
    apply List.pairwise_pair.mpr
    intro p hp hp'
    exact absurd hp.2 (Nat.not_lt.mpr hp'.1)
  obtain ⟨hok, -, hrel, -⟩ := compaction_exact (e := mirrorEngine)
    (Image.MirrorImage.fileImage_lawful false)
    (fun _ => Image.MirrorImage.shows_new (by rw [hlen]; decide)) hapart 8192
  obtain ⟨s, hs⟩ := hrel Image.MirrorImage.fileImage_reliable (by
    intro q hq
    rcases List.mem_pair.mp hq with rfl | rfl
    · exact ⟨rfl, by decide, by show _ ≤ twoCollections.length; rw [hlen]; decide⟩
    · exact ⟨rfl, by decide, by show _ ≤ twoCollections.length; rw [hlen]; decide⟩)
  have hpacked : s.image.data = packedAll [middleRemoval, secondRemoval] twoCollections :=
    (hok s hs).2.1
  refine ⟨s, hs, hpacked, ?_⟩
  rw [hpacked]
  decide +kernel

/-! ## An image with scripted failures -/

/-- A file and the bytes shown over it, with the calls that fail, in order. -/
structure ScriptedImage where
  disk : Bytes
  shown : Bytes
  script : List Bool
  length_eq : disk.length = shown.length

namespace ScriptedImage

def next (i : ScriptedImage) : ScriptedImage := { i with script := i.script.tail }

def refuses (i : ScriptedImage) : Bool := i.script.head?.getD false

def readAt (offset n : ℕ) : Fallible Error ScriptedImage Bytes := fun i =>
  if i.refuses then (.error .io, i.next)
  else if offset + n ≤ i.shown.length then (.ok (slice i.shown offset n), i.next)
  else (.error .io, i.next)

def writeAt (offset : ℕ) (bytes : Bytes) : Fallible Error ScriptedImage Unit := fun i =>
  if i.refuses then (.error .io, i.next)
  else if h : offset + bytes.length ≤ i.shown.length then
    (.ok (), { i.next with
      shown := patch i.shown offset bytes
      length_eq := by
        rw [length_patch (by omega)]
        have := i.length_eq
        show i.disk.length = _
        omega })
  else (.error .io, i.next)

def flush : Fallible Error ScriptedImage Unit := fun i =>
  if i.refuses then (.error .io, i.next)
  else (.ok (), { i.next with disk := i.shown, length_eq := rfl })

def sync : Fallible Error ScriptedImage Unit := fun i =>
  if i.refuses then (.error .io, i.next) else (.ok (), i.next)

def fileImage : FileImage ScriptedImage where
  readAt := readAt
  writeAt := writeAt
  flush := flush
  syncAll := sync
  syncData := sync
  orderingBarrier := sync
  discardPendingWrites i := { i with shown := i.disk, length_eq := rfl }
  content := shown
  Issued i p := i.disk[p]? = i.shown[p]?
  Sound _ := True

lemma keeps_next (i : ScriptedImage) : fileImage.Keeps i i.next := ⟨trivial, rfl, fun _ h => h⟩

lemma keeps_sync (i : ScriptedImage) : fileImage.Keeps i (sync i).2 := by
  unfold sync
  split <;> exact keeps_next i

lemma fileImage_lawful : fileImage.Lawful where
  read_keeps {i} _ offset n := by
    show fileImage.Keeps i (readAt offset n i).2
    unfold readAt
    split
    · exact keeps_next i
    · split <;> exact keeps_next i
  read_ok {i} _ {offset n bytes} h := by
    have h : (readAt offset n i).1 = .ok bytes := h
    unfold readAt at h
    split at h
    · cases h
    split at h
    · cases h
      exact ⟨‹_›, rfl⟩
    · cases h
  write_overwrites {i} _ {offset bytes} h := by
    have hlen := length_patch (l := i.shown) (Nat.le_of_add_right_le h) bytes
    replace h : offset + bytes.length ≤ i.shown.length := h
    have hsame : fileImage.Overwrites offset bytes.length i i.next :=
      ⟨trivial, rfl, fun _ _ => rfl, fun _ _ hi => hi⟩
    show fileImage.Overwrites offset bytes.length i (writeAt offset bytes i).2
    unfold writeAt
    split
    · exact hsame
    have hget : ∀ p, p < offset ∨ offset + bytes.length ≤ p →
        (patch i.shown offset bytes)[p]? = i.shown[p]? := by
      intro p hp
      rw [getElem?_patch (by omega), if_neg (by omega)]
    refine ⟨trivial, ?_, hget, fun p hp hi => ?_⟩
    · show (patch i.shown offset bytes).length = i.shown.length
      omega
    · show i.disk[p]? = (patch i.shown offset bytes)[p]?
      rw [hget p hp]
      exact hi
  write_ok {i} _ {offset bytes} h hok := by
    have h : offset + bytes.length ≤ i.shown.length := h
    show (writeAt offset bytes i).2.shown = patch i.shown offset bytes
    have hok : (writeAt offset bytes i).1 = .ok () := hok
    unfold writeAt at hok ⊢
    split at hok
    · cases hok
    · rename_i hrefuses
      rw [if_neg hrefuses, dif_pos h]
  flush_keeps {i} _ := by
    show fileImage.Keeps i (flush i).2
    unfold flush
    split
    · exact keeps_next i
    · exact ⟨trivial, rfl, fun _ _ => rfl⟩
  flush_ok {i} _ h p := by
    have h : (flush i).1 = .ok () := h
    show (flush i).2.disk[p]? = (flush i).2.shown[p]?
    unfold flush at h ⊢
    split at h
    · cases h
    · rename_i hrefuses
      rw [if_neg hrefuses]
      rfl
  syncAll_keeps {i} _ := keeps_sync i
  syncData_keeps {i} _ := keeps_sync i
  orderingBarrier_keeps {i} _ := keeps_sync i
  discard_length i := i.length_eq
  discard_issued h := ⟨rfl, h⟩

end ScriptedImage

def removal : PlannedCompaction collectionBytes where
  address := 0
  lengths := .eight
  remove _ := true
  members := ⟨⟨⟨0, 4096, by decide⟩, .eight, ⟨16, 16, by decide⟩⟩,
    [⟨1, 0, ⟨16, 24, by decide⟩, ⟨32, 8, by decide⟩⟩]⟩
  plan := ⟨⟨0, 4096, by decide⟩, [], some ⟨⟨16, 4080, by decide⟩, ⟨16, 16, by decide⟩,
    [0, 0, 0, 0, 0, 0, 0, 0, 240, 15, 0, 0, 0, 0, 0, 0]⟩, 0⟩
  collected := by decide +kernel
  compacted := by decide +kernel

/-- An engine on the collection, whose file ends in the byte `last`. -/
def scriptedEngine (last : UInt8) (script : List Bool) : WriteEngine ScriptedImage where
  image := {
    disk := collectionBytes.set 4096 last
    shown := collectionBytes
    script := script
    length_eq := List.length_set }
  inplaceUndo := []
  allocations := .confirmed
  publicationAttempted := false
  syncPolicy := .always

lemma length_collectionBytes : collectionBytes.length = 4097 := by decide +kernel

open ScriptedImage PlannedCompaction

/-- The batch of one plan, with the published end past the collection. -/
def removalRun (last : UInt8) (script : List Bool) :
    Except HeapMutationFailure Unit × WriteEngine ScriptedImage :=
  afterPublication fileImage 5000 [removal.plan] (scriptedEngine last script)

lemma packedAll_removal : packedAll [removal] collectionBytes =
    patch collectionBytes 16 [0, 0, 0, 0, 0, 0, 0, 0, 240, 15, 0, 0, 0, 0, 0, 0] := by
  have hfree : removal.records ++ freeHeader .eight (4096 - (16 + removal.records.length)) =
      [0, 0, 0, 0, 0, 0, 0, 0, 240, 15, 0, 0, 0, 0, 0, 0] := by decide +kernel
  rfl

/-- The bytes after a barrier and the restoring write fail, and after a flush and the restoring write
fail. -/
lemma removalRun_shown :
    fileImage.content (removalRun 7 [false, false, false, true, true]).2.image =
      patch collectionBytes 16 [0, 0, 0, 0, 0, 0, 0, 0, 240, 15, 0, 0, 0, 0, 0, 0] ∧
    fileImage.content (removalRun 5 [false, false, true, true]).2.image =
      collectionBytes.set 4096 5 := by
  simp [removalRun, afterPublication, publishedBatch, compactPublished, scriptedEngine, removal,
    AllocationState.beforeReference, JournalScope.runIssued, JournalScope.completeIssued, apply,
    applyMoves, writeInplaceJournaled, readExactAt, onImage, fileImage, FileRange.stop, checkedAdd,
    length_collectionBytes, Bind.bind, Fallible.andThen, Fallible.read, Fallible.lift,
    Fallible.modify, Pure.pure,
    readAt, writeAt, flush, sync, refuses, next, contained, FileRange.contains, undoInplaceSince,
    undoEntries, barrier, makeAllocationUncertain, isUncertain]

/-- A barrier fails after the writes are issued, and so does the write that restores them: the call
fails and the collection is packed. A flush fails with a write to another place pending, and so does
the write that restores: the other place goes back to what the file has. -/
theorem compaction_fails_packed_or_elsewhere :
    ((removalRun 7 [false, false, false, true, true]).1 =
        .error ⟨0, .uncertain, .commitPartiallyApplied .io .io⟩ ∧
      fileImage.content (removalRun 7 [false, false, false, true, true]).2.image =
        packedAll [removal] collectionBytes) ∧
    ((removalRun 5 [false, false, true, true]).1 =
        .error ⟨0, .uncertain, .commitPartiallyApplied .io .io⟩ ∧
      ¬ removal.Within 4096 ∧ collectionBytes[4096]? = some 7 ∧
      (fileImage.content (removalRun 5 [false, false, true, true]).2.image)[4096]? = some 5) := by
  have hshown := removalRun_shown
  have hlast : (collectionBytes.set 4096 5)[4096]? = some 5 :=
    List.getElem?_set_self (by rw [length_collectionBytes]; decide)
  refine ⟨⟨by decide +kernel, hshown.1.trans packedAll_removal.symm⟩, by decide +kernel,
    fun h => Nat.lt_irrefl 4096 h.2, by decide +kernel, ?_⟩
  rw [hshown.2]
  exact hlast

end Hdf5Pure.Heap
