import Hdf5Pure.Space.AggregatorTheorems

/-!
# Runs of the classic aggregators

The aggregators as their caller drives them: it threads the end of allocation, uses the extents it
is handed, and may free them. What it freed and what was released to it is its free space.
-/

namespace Hdf5Pure.Space

open List hiding Disjoint

open Checked ClassicAggregators

/-- The aggregators and what the caller knows of the file. -/
structure AggregatorSession where
  aggregators : ClassicAggregators
  eoa : ℕ
  live : List Extent
  freed : List Extent
  released : List Extent
  added : List Extent

/-- One call of the caller, or its decision to free an extent. -/
inductive AggregatorOp where
  | allocate (size : ℕ+) (allocationClass : AllocationClass)
  | releaseTail
  | reset
  | free (extent : Extent)
  | reconcileEoa (eoa : ℕ)

/-- What a call reports: the extents handed out and those released. -/
structure AggregatorReport where
  handedOut : List Extent
  released : List Extent

variable {base : ℕ}

namespace AggregatorSession

def start (eoa : ℕ) : AggregatorSession := ⟨.new, eoa, [], [], [], []⟩

def step (s : AggregatorSession) :
    AggregatorOp → Checked (Except AggregationError AggregatorReport × AggregatorSession)
  | .allocate size allocationClass => do
    let (result, aggregators) ← s.aggregators.allocate s.eoa size allocationClass
    match result with
    | .error error => .ok (.error error, { s with aggregators := aggregators })
    | .ok allocation =>
      .ok (.ok ⟨[allocation.extent], allocation.released.toList⟩,
        { s with
          aggregators := aggregators
          eoa := allocation.eoa
          live := allocation.extent :: s.live
          released := allocation.released.toList ++ s.released })
  | .releaseTail =>
    let (result, aggregators) := s.aggregators.releaseTail s.eoa
    match result with
    | .error error => .ok (.error error, { s with aggregators := aggregators })
    | .ok eoa => .ok (.ok ⟨[], []⟩, { s with aggregators := aggregators, eoa := eoa })
  | .reset =>
    let (result, aggregators) := s.aggregators.reset s.eoa
    match result with
    | .error error => .ok (.error error, { s with aggregators := aggregators })
    | .ok release =>
      .ok (.ok ⟨[], release.metadata.toList ++ release.raw.toList⟩,
        { s with
          aggregators := aggregators
          eoa := release.eoa
          released := release.metadata.toList ++ release.raw.toList ++ s.released })
  | .free extent =>
    .ok (.ok ⟨[], []⟩, { s with live := s.live.erase extent, freed := extent :: s.freed })
  | .reconcileEoa eoa =>
    let (result, aggregators) := s.aggregators.reconcileEoa eoa
    match result with
    | .error error => .ok (.error error, { s with aggregators := aggregators })
    | .ok () =>
      .ok (.ok ⟨[], []⟩,
        { s with
          aggregators := aggregators
          eoa := eoa
          freed := cutAt eoa s.freed
          released := cutAt eoa s.released
          added := (Extent.between s.eoa eoa).toList ++ cutAt eoa s.added })

/-- What is freed is in use, and an end of allocation is a 64-bit address at or above all in use. -/
def Contract (s : AggregatorSession) : AggregatorOp → Prop
  | .allocate _ _ | .releaseTail | .reset => True
  | .free extent => extent ∈ s.live
  | .reconcileEoa eoa => eoa < 2 ^ 64 ∧ ∀ e ∈ s.live, e.stop ≤ eoa

def unused (s : AggregatorSession) : List Extent :=
  (s.aggregators.unused .metadata).toList ++ (s.aggregators.unused .raw).toList

/-- Everything below the end of allocation, by owner. -/
def parts (s : AggregatorSession) : List Extent :=
  s.live ++ s.freed ++ s.released ++ s.added ++ s.unused

/-- Conservation from the end of allocation `base` on. -/
structure Conserved (base : ℕ) (s : AggregatorSession) : Prop where
  disjoint : s.parts.Pairwise fun a b => Disjoint a.bytes b.bytes
  below : ∀ e ∈ s.parts, e.stop ≤ s.eoa
  covered : ∀ x, base ≤ x → x < s.eoa → x ∈ covered s.parts

/-! ## The invariant -/

def held (s : AggregatorSession) (x : ℕ) : ℕ :=
  owners x s.live + owners x s.freed + owners x s.released + owners x s.added

structure Inv (base : ℕ) (s : AggregatorSession) : Prop where
  valid : s.aggregators.Valid s.eoa
  once : ∀ x, s.held x + s.aggregators.spare x ≤ 1
  above : ∀ x, s.eoa ≤ x → s.held x + s.aggregators.spare x = 0
  full : ∀ x, base ≤ x → x < s.eoa → s.held x + s.aggregators.spare x = 1

lemma inv_start (eoa : ℕ) : (start eoa).Inv eoa := by
  have hzero : ∀ x, (start eoa).held x + (start eoa).aggregators.spare x = 0 := fun _ => rfl
  refine ⟨valid_new eoa, fun x => ?_, fun x _ => hzero x, fun x hx hxe => ?_⟩
  · rw [hzero]
    exact Nat.zero_le 1
  · exact absurd hx (not_le.mpr hxe)

lemma owners_parts (s : AggregatorSession) (x : ℕ) :
    owners x s.parts = s.held x + s.aggregators.spare x := by
  simp only [parts, unused, owners_append]
  rfl

variable {s : AggregatorSession}

lemma Inv.conserved (h : s.Inv base) : s.Conserved base := by
  refine ⟨pairwise_of_owners fun x => ?_, fun e he => ?_, fun x hx hxe => ?_⟩
  · rw [owners_parts]
    exact h.once x
  · -- the last byte of an extent is owned, so that it lies below the end of allocation
    by_contra hgt
    have hpos := e.start_lt_stop
    have hzero := h.above (e.stop - 1) (by omega)
    rw [← owners_parts, owners_eq_zero] at hzero
    exact hzero e he (Extent.mem_bytes.mpr ⟨by omega, by omega⟩)
  · rw [← owners_pos, owners_parts, h.full x hx hxe]
    exact Nat.one_pos

lemma Inv.moves {s' : AggregatorSession} (h : s.Inv base) {given : ℕ → ℕ}
    (hheld : ∀ x, s'.held x = s.held x + given x) (hvalid : s'.aggregators.Valid s'.eoa)
    (hmoves : Moves s.aggregators.spare s.eoa given s'.aggregators.spare s'.eoa) : s'.Inv base := by
  have hbelow : ∀ x, x < s'.eoa →
      s'.held x + s'.aggregators.spare x =
        s.held x + if x < s.eoa then s.aggregators.spare x else 1 := by
    intro x hx
    rw [hheld, Nat.add_assoc, hmoves.below x hx]
  have habove : ∀ x, s'.eoa ≤ x → s'.held x + s'.aggregators.spare x = 0 := by
    intro x hx
    rw [hheld, Nat.add_assoc, hmoves.above x hx]
    by_cases hxe : x < s.eoa
    · have h1 := hmoves.back x hx hxe
      have h2 := h.once x
      omega
    · have := h.above x (not_lt.mp hxe)
      omega
  refine ⟨hvalid, fun x => ?_, habove, fun x hx hxe => ?_⟩
  · by_cases hx : x < s'.eoa
    · rw [hbelow x hx]
      split_ifs with hxe
      · exact h.once x
      · have := h.above x (not_lt.mp hxe)
        omega
    · rw [habove x (not_lt.mp hx)]
      exact Nat.zero_le 1
  · rw [hbelow x hxe]
    split_ifs with hxe'
    · exact h.full x hx hxe'
    · have := h.above x (not_lt.mp hxe')
      omega

/-- Reconciling cuts the caller's free space off or adds to it. -/
lemma Inv.reconcile (h : s.Inv base) {eoa : ℕ} (hlimit : eoa < 2 ^ 64)
    (hlive : ∀ e ∈ s.live, e.stop ≤ eoa) {next : ClassicAggregators} (hvalid : next.Valid eoa)
    (hspare : next.spare = s.aggregators.spare) :
    Inv base { s with
      aggregators := next
      eoa := eoa
      freed := cutAt eoa s.freed
      released := cutAt eoa s.released
      added := (Extent.between s.eoa eoa).toList ++ cutAt eoa s.added } := by
  have hlive0 : ∀ x, eoa ≤ x → owners x s.live = 0 := by
    intro x hx
    rw [owners_eq_zero]
    intro e he hxe
    have := hlive e he
    rw [Extent.mem_bytes] at hxe
    omega
  have hcount : ∀ x, held { s with
      aggregators := next
      eoa := eoa
      freed := cutAt eoa s.freed
      released := cutAt eoa s.released
      added := (Extent.between s.eoa eoa).toList ++ cutAt eoa s.added } x + next.spare x =
      if x < eoa then s.held x + s.aggregators.spare x + (if s.eoa ≤ x then 1 else 0) else 0 := by
    intro x
    simp only [held, owners_append, owners_cutAt, owners_between hlimit]
    by_cases hx : x < eoa
    · simp only [if_pos hx, hspare]
      split_ifs <;> omega
    · have hz := hvalid.spare_eq_zero (not_lt.mp hx)
      rw [hz, hlive0 x (not_lt.mp hx), if_neg hx, if_neg hx, if_neg hx, if_neg hx,
        if_neg (by omega)]
  refine ⟨hvalid, fun x => ?_, fun x hx => ?_, fun x hx hxe => ?_⟩
  · rw [hcount]
    have h1 := h.once x
    have h2 := h.above x
    split_ifs <;> omega
  · rw [hcount, if_neg (not_lt.mpr hx)]
  · rw [hcount, if_pos hxe]
    have h1 := h.full x hx
    have h2 := h.above x
    split_ifs <;> omega

/-! ## Runs -/

/-- Every call returns and keeps the invariant, and an error leaves the session as it is. -/
lemma Inv.step (h : s.Inv base) (op : AggregatorOp) (hop : s.Contract op) :
    ∃ r s', s.step op = .ok (r, s') ∧ s'.Inv base ∧ ∀ error, r = .error error → s' = s := by
  cases op with
  | allocate size c =>
    obtain ⟨result, next, halloc, hok, herr⟩ := allocate_spec h.valid size c
    simp only [AggregatorSession.step, halloc, ok_bind]
    cases result with
    | error error =>
      obtain rfl := herr error rfl
      exact ⟨_, s, rfl, h, fun _ _ => rfl⟩
    | ok allocation =>
      have hspec := hok allocation rfl
      refine ⟨_, _, rfl, h.moves (fun x => ?_) hspec.valid hspec.moves, by simp⟩
      simp only [held, owners_cons, owners_append]
      omega
  | releaseTail =>
    obtain ⟨eoa', next, hrelease, hvalid, hmoves⟩ := releaseTail_spec h.valid
    simp only [AggregatorSession.step, hrelease]
    exact ⟨_, _, rfl, h.moves (fun x => rfl) hvalid hmoves, by simp⟩
  | reset =>
    obtain ⟨release, hreset, hmoves⟩ := reset_spec h.valid
    simp only [AggregatorSession.step, hreset]
    refine ⟨_, _, rfl, h.moves (fun x => ?_) (valid_new _) hmoves, by simp⟩
    simp only [held, owners_append]
    omega
  | free e =>
    refine ⟨_, _, rfl, ⟨h.valid, ?_, ?_, ?_⟩, by simp⟩
    all_goals
      have hheld : ∀ x, held { s with live := s.live.erase e, freed := e :: s.freed } x =
          s.held x := by
        intro x
        have hperm : owners x _ = owners x _ := (perm_cons_erase hop).countP_eq _
        simp only [held, owners_cons] at hperm ⊢
        omega
      simp only [hheld]
    · exact h.once
    · exact h.above
    · exact h.full
  | reconcileEoa eoa =>
    rcases reconcileEoa_spec h.valid eoa with ⟨next, hrec, hvalid, hspare⟩ | ⟨error, hrec⟩
    · simp only [AggregatorSession.step, hrec]
      exact ⟨_, _, rfl, h.reconcile hop.1 hop.2 hvalid hspare, by simp⟩
    · simp only [AggregatorSession.step, hrec]
      exact ⟨_, s, rfl, h, fun _ _ => rfl⟩

/-- **Aggregator conservation.** Every run within the contracts returns. In each of its states the
extents in use, the caller's free space and the unused parts of the windows are disjoint, lie below
the end of allocation and cover it from its first value on, and an error changes nothing. -/
theorem run_conserved (eoa : ℕ) (ops : List AggregatorOp)
    (hrun : AllowedRun step Contract (start eoa) ops) :
    ∃ results s, runAll step (start eoa) ops = .ok (results, s) ∧ s.Conserved eoa ∧
      Trace (fun s _ r s' => s'.Conserved eoa ∧ ∀ error, r = .error error → s' = s)
        (start eoa) ops results s := by
  obtain ⟨results, s, hok, hinv, htrace⟩ :=
    hrun.trace (Inv eoa) (fun s op hs hop => hs.step op hop) (inv_start eoa)
  exact ⟨results, s, hok, hinv.conserved, htrace.imp fun _ _ _ _ h => ⟨h.1.conserved, h.2⟩⟩

/-- Both windows are opened and cleared, the raw extent is freed, and the next request starts at the
lowered end. -/
def reuseAfterReconcile : List AggregatorOp :=
  [.allocate 64 .metadata, .allocate 64 .raw, .reset, .free ⟨2048, 64, by decide, by decide⟩,
    .reconcileEoa 64, .allocate 64 .metadata]

set_option maxRecDepth 8000 in
lemma allowedRun_reuseAfterReconcile : AllowedRun step Contract (start 0) reuseAfterReconcile := by
  refine .cons rfl trivial (.cons rfl trivial (.cons rfl trivial (.cons rfl ?_ (.cons rfl ?_
    ⟨trivial, fun _ _ _ => trivial⟩))))
  · show (⟨2048, 64, by decide, by decide⟩ : Extent) ∈ _
    exact mem_cons_self
  · refine ⟨by decide, fun e he => ?_⟩
    obtain rfl := mem_singleton.mp he
    exact le_rfl

theorem run_conserved_reuseAfterReconcile :
    ∃ results s, runAll step (start 0) reuseAfterReconcile = .ok (results, s) ∧ s.Conserved 0 ∧
      Trace (fun s _ r s' => s'.Conserved 0 ∧ ∀ error, r = .error error → s' = s)
        (start 0) reuseAfterReconcile results s :=
  run_conserved 0 reuseAfterReconcile allowedRun_reuseAfterReconcile

def reportedReleased (results : List (Except AggregationError AggregatorReport)) : List Extent :=
  results.flatMap fun result => (result.toOption.map AggregatorReport.released).getD []

set_option maxRecDepth 8000 in
/-- An extent reported as released may be handed out again after the end of allocation has been
lowered below it, although nothing above the new end is in use. -/
theorem released_reused :
    ∃ results s, AllowedRun step Contract (start 0) reuseAfterReconcile ∧
      runAll step (start 0) reuseAfterReconcile = .ok (results, s) ∧
      ¬ (s.live ++ reportedReleased results).Pairwise fun a b => Disjoint a.bytes b.bytes := by
  refine ⟨_, _, allowedRun_reuseAfterReconcile, rfl, fun h => ?_⟩
  have hlive : (⟨64, 64, by decide, by decide⟩ : Extent) ∈ [
      (⟨64, 64, by decide, by decide⟩ : Extent), ⟨0, 64, by decide, by decide⟩] :=
    mem_cons_self
  have hreleased : (⟨64, 1984, by decide, by decide⟩ : Extent) ∈ [
      (⟨64, 1984, by decide, by decide⟩ : Extent)] := mem_cons_self
  have hdisj := (pairwise_append.mp h).2.2 _ hlive _ hreleased
  rw [Extent.disjoint_iff] at hdisj
  exact absurd hdisj (by decide)

end AggregatorSession

end Hdf5Pure.Space
