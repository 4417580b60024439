import Hdf5Pure.Space.AdmissionTheorems
import Hdf5Pure.Space.IndexedTheorems
import Hdf5Pure.Space.Session
import Hdf5Pure.Utils.Runs

/-!
# Indexed reservation batches equal scalar reservation

The simulation relates a reservation batch to the session that scalar reservation would have
reached: both answer every request alike, and the batch leaves the lists of that session.
-/

namespace Hdf5Pure.Space

open Checked IndexedFreeList

/-! ## Placement -/

variable {pageSize : Option FileSpacePageSize} {page : FileSpacePageSize} {start : ℕ}

namespace ReservationRequest

variable {request : ReservationRequest} {a : Extent}

/-- An allocation of the requested length stays where it is when its start needs no padding. -/
lemma placeAfter_eq_self (hlen : a.len = request.size)
    (hstart : request.startAfter a.start pageSize = .ok a.start) :
    request.placeAfter a.start pageSize = .ok a := by
  have hnew : Extent.new a.start request.size = some a := Extent.new_eq_some.mpr ⟨rfl, hlen.symm ▸ rfl⟩
  simp only [placeAfter, hstart, hnew, bind, Except.bind]

lemma startAfter_none (start : ℕ) : request.startAfter start none = .ok start := rfl

lemma startAfter_compound (h : request.isBlock = false) (start : ℕ)
    (pageSize : Option FileSpacePageSize) : request.startAfter start pageSize = .ok start := by
  simp [startAfter, h]

lemma startAfter_aligned (h : page.get ∣ start) :
    request.startAfter start (some page) = .ok start := by
  have hmod := Nat.mod_eq_zero_of_dvd h
  cases hb : request.isBlock with
  | false => simp [startAfter, hb]
  | true => simp [startAfter, hb, hmod, Option.filter]

lemma placeAfter_eq_ok (h : request.placeAfter start pageSize = .ok a) :
    request.startAfter start pageSize = .ok a.start ∧ a.len = request.size := by
  obtain ⟨s, hs, h⟩ := bind_eq_ok.mp h
  cases hnew : Extent.new s request.size with
  | none => simp [hnew] at h
  | some b =>
    obtain rfl : b = a := by simpa [hnew] using h
    obtain ⟨rfl, hlen⟩ := Extent.new_eq_some.mp hnew
    exact ⟨hs, hlen⟩

lemma placeAfter_placed (h : request.placeAfter start (some page) = .ok a) :
    request.placeAfter a.start (some page) = .ok a := by
  obtain ⟨hs, hlen⟩ := placeAfter_eq_ok h
  apply placeAfter_eq_self hlen
  cases hb : request.isBlock with
  | false => exact startAfter_compound hb _ _
  | true =>
    simp only [startAfter, hb, Option.filter_some, if_true] at hs ⊢
    split_ifs at hs with hpad
    · -- the start was moved to a page boundary
      cases hadd : checkedAdd start (page.get - start % page.get) with
      | none => rw [hadd] at hs; cases hs
      | some t =>
        rw [hadd] at hs
        have hpage := page.min_le
        have hlt := Nat.mod_lt start (show 0 < page.get by omega)
        have hsum : a.start = start + (page.get - start % page.get) := by
          rw [← Except.ok.inj hs, ← (checkedAdd_eq_some.mp hadd).2]
        have hmod : a.start % page.get = 0 := by
          have hdiv := Nat.div_add_mod start page.get
          rw [hsum, show start + (page.get - start % page.get) =
            page.get * (start / page.get + 1) by rw [Nat.mul_add]; omega]
          exact Nat.mul_mod_right _ _
        rw [if_neg (by simp [hmod])]
    · obtain rfl : start = a.start := Except.ok.inj hs
      rw [if_neg hpad]

end ReservationRequest

/-! ## PAGE requests -/

variable {own other : IndexedFreeList} {request : ReservationRequest} {space : SessionSpace}
  {batch : ReservationBatch}

/-- After a PAGE lookup the indexes stand for canonical disjoint lists, and the selected range is
where the request is placed. -/
structure PagedOutcome (page : FileSpacePageSize) (request : ReservationRequest)
    (extent : Option Extent) (own other : IndexedFreeList) (lo lt : FreeList) : Prop where
  own : Represents (some page) own lo
  other : Represents (some page) other lt
  ownCanonical : lo.Canonical
  otherCanonical : lt.Canonical
  disjoint : Disjoint lo.bytes lt.bytes
  placed : ∀ a, extent = some a → request.placeAfter a.start (some page) = .ok a

lemma PagedOutcome.symm {extent : Option Extent} {lo lt : FreeList}
    (h : PagedOutcome page request extent own other lo lt) :
    PagedOutcome page request extent other own lt lo :=
  ⟨h.other, h.own, h.otherCanonical, h.ownCanonical, h.disjoint.symm, h.placed⟩

lemma claimPages_spec {paged : PagedEdit} {lo lt : FreeList}
    (h : PagedOutcome paged.pageSize request none own other lo lt) :
    ∃ extent own' other' lo' lt',
      ReservationBatch.claimPages own other paged.pageSize request.size =
        .ok (extent, own', other') ∧
      paged.claim lo lt request.size request.pageType =
        .ok (extent, paged.withLists request.pageType lo' lt') ∧
      paged.claimBlock lo lt request =
        .ok (extent, paged.withLists request.pageType lo' lt') ∧
      PagedOutcome paged.pageSize request extent own' other' lo' lt' := by
  unfold ReservationBatch.claimPages PagedEdit.claim PagedEdit.claimBlock
  cases hspan : checkedNextMultipleOf request.size paged.pageSize.get with
  | none => exact ⟨none, own, other, lo, lt, rfl, rfl, rfl, h⟩
  | some span =>
    have hsize := request.size_pos
    obtain ⟨-, hdvd, hle, -, -⟩ := checkedNextMultipleOf_spec hspan
    obtain ⟨claimed, other', lt', hindex, hlist, hcan', heff, halign, hrep⟩ :=
      h.other.allocateWholeUnits h.otherCanonical (hsize.trans_le hle) hdvd
    have hd' := h.disjoint.mono_right heff.bytes_subset
    have hzero : span ≠ 0 := by omega
    simp only [if_neg hzero, hindex, hlist, ok_bind]
    cases claimed with
    | none =>
      exact ⟨none, own, other', lo, lt', rfl, rfl, rfl, h.own, hrep, h.ownCanonical, hcan', hd',
        by simp⟩
    | some c =>
      obtain ⟨hclen, hcsub, hcbytes⟩ := heff
      have hcstop := c.stop_eq
      have hclt := c.stop_lt_limit
      obtain ⟨a, hnew, hstart, hlen⟩ :=
        Extent.exists_new (s := c.start) hsize (by omega)
      have hastop := a.stop_eq
      have hplace : request.placeAfter a.start (some paged.pageSize) = .ok a :=
        ReservationRequest.placeAfter_eq_self hlen
          (ReservationRequest.startAfter_aligned (hstart ▸ halign c rfl))
      have hplace' : (request.placeAfter c.start (some paged.pageSize)).toOption = some a := by
        rw [← hstart, hplace]
        rfl
      by_cases hfull : request.size = span
      · have hbetween : Extent.between a.stop c.stop = none := Extent.between_eq_none (by omega)
        obtain rfl : a = c := Extent.ext hstart (by omega)
        refine ⟨some a, own, other', lo, lt', ?_, ?_, ?_, h.own, hrep, h.ownCanonical, hcan', hd',
          fun _ he => Option.some.inj he ▸ hplace⟩
        · simp only [hnew, expect_some, ok_bind, hbetween]
        · simp only [hfull, if_true]
        · simp only [hplace', expect_some, ok_bind, hbetween]
      · -- the rest of the last page is kept for the own type
        obtain ⟨rem, hbetween, hrs, hrt⟩ :=
          Extent.exists_between (s := a.stop) (by omega) hclt
        have hremnew : Extent.new a.stop (span - request.size) = some rem := by
          have := rem.len_eq
          exact Extent.new_eq_some.mpr ⟨hrs, by omega⟩
        have hremsub : rem.bytes ⊆ c.bytes := by
          intro x hx
          rw [Extent.mem_bytes] at hx ⊢
          omega
        obtain ⟨own', lo', hfree, hfree', hlo', hlobytes, hown'⟩ :=
          h.own.free h.ownCanonical (h.disjoint.mono_right (hremsub.trans hcsub))
        have hd'' : Disjoint lo'.bytes lt'.bytes := by
          rw [hlobytes, Set.disjoint_union_left]
          refine ⟨hd', ?_⟩
          rw [hcbytes]
          exact Set.disjoint_sdiff_right.mono_left hremsub
        refine ⟨some a, own', other', lo', lt', ?_, ?_, ?_, hown', hrep, hlo', hcan', hd'',
          fun _ he => Option.some.inj he ▸ hplace⟩
        · simp only [hnew, expect_some, ok_bind, hbetween, hfree]
        · simp only [if_neg (Ne.symm hfull), hnew, expect_some, ok_bind, hremnew, hfree']
        · simp only [hplace', expect_some, ok_bind, hbetween, hfree']

variable {extent : Option Extent} {lender : SessionSpace}

lemma PagedOutcome.of_own {own' : IndexedFreeList} {lo lo' lt : FreeList}
    (h : PagedOutcome page request none own other lo lt) {len : ℕ}
    (hrep : Represents (some page) own' lo') (hcan : lo'.Canonical)
    (heff : lo.Allocates len extent lo')
    (hplaced : ∀ a, extent = some a → request.placeAfter a.start (some page) = .ok a) :
    PagedOutcome page request extent own' other lo' lt :=
  ⟨hrep, h.other, hcan, h.otherCanonical, h.disjoint.mono_left heff.bytes_subset, hplaced⟩

lemma selectPaged_spec (paged : PagedEdit)
    (h : PagedOutcome paged.pageSize request none own other (paged.list request.pageType)
      (paged.list request.pageType.other)) :
    ∃ extent own' other' lo' lt',
      ReservationBatch.selectPaged own other paged.pageSize request = .ok (extent, own', other') ∧
      paged.allocateRequest request = .ok (extent, paged.withLists request.pageType lo' lt') ∧
      PagedOutcome paged.pageSize request extent own' other' lo' lt' := by
  unfold ReservationBatch.selectPaged ReservationBatch.selectOwn PagedEdit.allocateRequest
    PagedEdit.allocate PagedEdit.allocateBlock
  cases hkind : request.kind with
  | block =>
    have hblock : request.isBlock = true := by simp [ReservationRequest.isBlock, hkind]
    obtain ⟨result, own₁, lo₁, hindex, hlist, hcan, heff, hplace, hrep⟩ :=
      h.own.allocateBlock h.ownCanonical request
    have hout : PagedOutcome paged.pageSize request result own₁ other lo₁
        (paged.list request.pageType.other) :=
      h.of_own hrep hcan heff fun a ha =>
        ReservationRequest.placeAfter_placed (hplace a ha).choose_spec
    simp only [hblock, if_true, hindex, hlist, ok_bind]
    cases result with
    | some a => exact ⟨some a, own₁, other, lo₁, _, rfl, rfl, hout⟩
    | none =>
      obtain ⟨extent, own', other', lo', lt', hbatch, -, hscalar, hout'⟩ := claimPages_spec hout
      exact ⟨extent, own', other', lo', lt', hbatch, hscalar, hout'⟩
  | compound =>
    have hblock : request.isBlock = false := by simp [ReservationRequest.isBlock, hkind]
    obtain ⟨result, own₁, lo₁, hindex, hlist, hcan, heff, hrep⟩ :=
      h.own.allocate h.ownCanonical request.size_pos
    have hout : PagedOutcome paged.pageSize request result own₁ other lo₁
        (paged.list request.pageType.other) := by
      refine h.of_own hrep hcan heff ?_
      rintro a rfl
      exact ReservationRequest.placeAfter_eq_self heff.1
        (ReservationRequest.startAfter_compound hblock _ _)
    simp only [hblock, Bool.false_eq_true, if_false, hindex, hlist, ok_bind]
    cases result with
    | some a => exact ⟨some a, own₁, other, lo₁, _, rfl, rfl, hout⟩
    | none =>
      obtain ⟨extent, own', other', lo', lt', hbatch, hscalar, -, hout'⟩ := claimPages_spec hout
      exact ⟨extent, own', other', lo', lt', hbatch, hscalar, hout'⟩

/-! ## Sessions -/

def SessionSpace.Canonical : SessionSpace → Prop
  | disabled => True
  | flat space => space.free.Canonical
  | paged space => space.paged.metadata.Canonical ∧ space.paged.raw.Canonical ∧
      Disjoint space.paged.metadata.bytes space.paged.raw.bytes

/-- A request to a batch or to the session it borrows from. -/
inductive BatchOp where
  | reserve (request : ReservationRequest)
  | releaseAggregate (eoa : ℕ) (extent : Extent)

/-- The answer to a request. -/
inductive BatchResult where
  | reserved (extent : Option Extent)
  | released (recorded : Bool)
deriving DecidableEq

namespace BatchOp

def scalarStep (space : SessionSpace) : BatchOp → Checked (BatchResult × SessionSpace)
  | reserve request => do
    let (extent, space) ← space.allocateRequest request
    .ok (.reserved extent, space)
  | releaseAggregate eoa extent =>
    if !space.isPaged && space.isEnabled then do
      let space ← space.recordFreed eoa extent .dead
      .ok (.released true, space)
    else .ok (.released false, space)

def batchStep (batch : ReservationBatch) : BatchOp → Checked (BatchResult × ReservationBatch)
  | reserve request => do
    let (placement, batch) ← batch.reserve request
    .ok (.reserved (placement.map ReservationPlacement.extent), batch)
  | releaseAggregate eoa extent => do
    let (recorded, batch) ← batch.releaseAggregate eoa extent
    .ok (.released recorded, batch)

def Contract (space : SessionSpace) : BatchOp → Prop
  | reserve _ => True
  | releaseAggregate _ extent =>
    match space with
    | .flat space => Disjoint space.free.bytes extent.bytes
    | _ => True

end BatchOp

/-- A batch that was lent `lender` answers like `space`. -/
inductive Answers (lender : SessionSpace) : ReservationBatch → SessionSpace → Prop
  | disabled (h : lender = .disabled) : Answers lender .disabled .disabled
  | scalar {space : SessionSpace} (h : space.Canonical) : Answers lender (.scalar space) space
  | flat {space : FlatSpace} {index : IndexedFreeList} {l : FreeList} (h : lender = .flat space)
      (hrep : Represents none index l) (hcan : l.Canonical) :
      Answers lender (.flat index space.threshold) (.flat { space with free := l })
  | paged {space : PagedSpace} {metadata raw : IndexedFreeList} {lm lr : FreeList}
      (h : lender = .paged space) (hm : Represents (some space.paged.pageSize) metadata lm)
      (hr : Represents (some space.paged.pageSize) raw lr) (hlm : lm.Canonical)
      (hlr : lr.Canonical) (hd : Disjoint lm.bytes lr.bytes) :
      Answers lender (.paged metadata raw space.paged.pageSize)
        (.paged { space with paged := { space.paged with metadata := lm, raw := lr } })

/-- What the batch gives back is the space it answers like. -/
lemma Answers.owned (h : Answers lender batch space) : batch.restore.owned lender = space := by
  cases h with
  | disabled h => rw [h]; rfl
  | scalar h => rfl
  | flat h hrep hcan =>
    rw [h, ← hrep.list, ← hrep.coherent.restore_owner]
    rfl
  | paged h hm hr hlm hlr hd =>
    rw [h, ← hm.list, ← hr.list, ← hm.coherent.restore_owner, ← hr.coherent.restore_owner]
    rfl

lemma ReservationBatch.restore_restore (batch : ReservationBatch) :
    batch.restore.restore = batch.restore := by
  cases batch with
  | flat free threshold => simp [restore, IndexedFreeList.restore_restore]
  | paged metadata raw pageSize => simp [restore, IndexedFreeList.restore_restore]
  | _ => rfl

/-- Every batch of a session answers like the session it was lent. -/
lemma answers_indexedBatch (h : space.Canonical) : Answers space space.indexedBatch space := by
  cases space with
  | disabled => exact .disabled rfl
  | flat space =>
    obtain ⟨hcoh, hlist⟩ := new_spec h none
    exact .flat rfl ⟨hcoh, hlist⟩ h
  | paged space =>
    obtain ⟨hm, hr, hd⟩ := h
    obtain ⟨hcm, hlm⟩ := new_spec hm (some space.paged.pageSize)
    obtain ⟨hcr, hlr⟩ := new_spec hr (some space.paged.pageSize)
    exact .paged rfl ⟨hcm, hlm⟩ ⟨hcr, hlr⟩ hm hr hd

/-! ## Steps and runs -/

/-- A lookup whose range is where the request is placed completes the reservation. -/
lemma batchStep_of_select {batch' : ReservationBatch}
    (h : batch.select request = .ok (extent, batch'))
    (hplaced : ∀ a, extent = some a → request.placeAfter a.start batch.pageSize = .ok a) :
    BatchOp.batchStep batch (.reserve request) = .ok (.reserved extent, batch') := by
  cases extent with
  | none => simp [BatchOp.batchStep, ReservationBatch.reserve, h]
  | some a =>
    simp [BatchOp.batchStep, ReservationBatch.reserve, h, hplaced a rfl, Except.toOption, assert]

lemma placed_of_allocates {l l' : FreeList} (h : l.Allocates request.size extent l') :
    ∀ a, extent = some a → request.placeAfter a.start none = .ok a := by
  rintro a rfl
  exact ReservationRequest.placeAfter_eq_self h.1 (ReservationRequest.startAfter_none _)

lemma SessionSpace.allocateRequest_paged (space : PagedSpace) (request : ReservationRequest) :
    (SessionSpace.paged space).allocateRequest request = (do
      let (extent, edit) ← space.paged.allocateRequest request
      .ok (extent, .paged { space with paged := edit })) := by
  unfold SessionSpace.allocateRequest PagedEdit.allocateRequest
  split_ifs <;> rfl

lemma select_paged (space : PagedSpace) (request : ReservationRequest)
    {metadata raw : IndexedFreeList}
    (h : PagedOutcome space.paged.pageSize request none metadata raw space.paged.metadata
      space.paged.raw) :
    ∃ extent metadata' raw' lm lr,
      (ReservationBatch.paged metadata raw space.paged.pageSize).select request =
        .ok (extent, .paged metadata' raw' space.paged.pageSize) ∧
      (SessionSpace.paged space).allocateRequest request =
        .ok (extent, .paged { space with paged := { space.paged with metadata := lm, raw := lr } }) ∧
      PagedOutcome space.paged.pageSize request extent metadata' raw' lm lr := by
  unfold ReservationBatch.select
  rw [SessionSpace.allocateRequest_paged]
  cases hty : request.pageType with
  | metadata =>
    obtain ⟨extent, own', other', lo', lt', hbatch, hscalar, hout⟩ :=
      selectPaged_spec space.paged (by rw [hty]; exact h)
    rw [hty] at hscalar
    exact ⟨extent, own', other', lo', lt', by simp only [hbatch, ok_bind],
      by simp only [hscalar, ok_bind]; rfl, hout⟩
  | raw =>
    obtain ⟨extent, own', other', lo', lt', hbatch, hscalar, hout⟩ :=
      selectPaged_spec space.paged (by rw [hty]; exact h.symm)
    rw [hty] at hscalar
    exact ⟨extent, other', own', lt', lo', by simp only [hbatch, ok_bind],
      by simp only [hscalar, ok_bind]; rfl, hout.symm⟩

lemma reserve_answers (h : Answers lender batch space) (request : ReservationRequest) :
    ∃ result space' batch', BatchOp.scalarStep space (.reserve request) = .ok (result, space') ∧
      BatchOp.batchStep batch (.reserve request) = .ok (result, batch') ∧
      Answers lender batch' space' := by
  cases h with
  | disabled h => exact ⟨.reserved none, _, _, rfl, rfl, .disabled h⟩
  | @flat space index l h hrep hcan =>
    obtain ⟨extent, index', l', hindex, hlist, hcan', heff, hrep'⟩ :=
      hrep.allocate hcan request.size_pos
    refine ⟨.reserved extent, _, _, ?_, batchStep_of_select ?_ (placed_of_allocates heff),
      .flat h hrep' hcan'⟩
    · simp [BatchOp.scalarStep, SessionSpace.allocateRequest, SessionSpace.allocateWithPageType,
        hlist]
    · simp only [ReservationBatch.select, hindex, ok_bind]
  | @paged space metadata raw lm lr h hm hr hlm hlr hd =>
    obtain ⟨extent, metadata', raw', lm', lr', hbatch, hscalar, hout⟩ :=
      select_paged { space with paged := { space.paged with metadata := lm, raw := lr } } request
        ⟨hm, hr, hlm, hlr, hd, by simp⟩
    have hans : Answers lender (.paged metadata' raw' space.paged.pageSize)
        (.paged { space with paged := { space.paged with metadata := lm', raw := lr' } }) :=
      .paged h hout.own hout.other hout.ownCanonical hout.otherCanonical hout.disjoint
    exact ⟨.reserved extent, _, _, by simp only [BatchOp.scalarStep, hscalar, ok_bind],
      batchStep_of_select hbatch hout.placed, hans⟩
  | scalar h =>
    cases space with
    | disabled => exact ⟨.reserved none, .disabled, _, rfl, rfl, .scalar trivial⟩
    | flat space =>
      obtain ⟨extent, l', hlist, hcan', heff, -⟩ := FreeList.alloc_spec h request.size
      have hscalar : (SessionSpace.flat space).allocateRequest request =
          .ok (extent, .flat { space with free := l' }) := by
        simp [SessionSpace.allocateRequest, SessionSpace.allocateWithPageType, hlist]
      refine ⟨.reserved extent, .flat { space with free := l' }, _,
        by simp only [BatchOp.scalarStep, hscalar, ok_bind],
        batchStep_of_select ?_ (placed_of_allocates heff), .scalar hcan'⟩
      simp only [ReservationBatch.select, hscalar, ok_bind]
    | paged space =>
      -- the scalar path is also that of freshly built indexes
      obtain ⟨hcm, hlm⟩ := new_spec h.1 (some space.paged.pageSize)
      obtain ⟨hcr, hlr⟩ := new_spec h.2.1 (some space.paged.pageSize)
      obtain ⟨extent, _, _, lm', lr', -, hscalar, hout⟩ :=
        select_paged space request ⟨⟨hcm, hlm⟩, ⟨hcr, hlr⟩, h.1, h.2.1, h.2.2, by simp⟩
      refine ⟨.reserved extent,
        .paged { space with paged := { space.paged with metadata := lm', raw := lr' } }, _,
        by simp only [BatchOp.scalarStep, hscalar, ok_bind], batchStep_of_select ?_ hout.placed,
        .scalar ⟨hout.ownCanonical, hout.otherCanonical, hout.disjoint⟩⟩
      simp only [ReservationBatch.select, hscalar, ok_bind]

lemma releaseAggregate_answers (h : Answers lender batch space) (eoa : ℕ) (extent : Extent)
    (hop : BatchOp.Contract space (.releaseAggregate eoa extent)) :
    ∃ result space' batch',
      BatchOp.scalarStep space (.releaseAggregate eoa extent) = .ok (result, space') ∧
      BatchOp.batchStep batch (.releaseAggregate eoa extent) = .ok (result, batch') ∧
      Answers lender batch' space' := by
  cases h with
  | disabled h => exact ⟨.released false, _, _, rfl, rfl, .disabled h⟩
  | @flat space index l h hrep hcan =>
    obtain ⟨result, index', l', hindex, hlist, hcan', hrep'⟩ :=
      hrep.release hcan space.threshold hop
    refine ⟨.released true, _, _, ?_, ?_, .flat h hrep' hcan'⟩
    · simp [BatchOp.scalarStep, SessionSpace.isPaged, SessionSpace.isEnabled,
        SessionSpace.recordFreed, hlist]
    · simp [BatchOp.batchStep, ReservationBatch.releaseAggregate, hindex]
  | paged h hm hr hlm hlr hd => exact ⟨.released false, _, _, rfl, rfl, .paged h hm hr hlm hlr hd⟩
  | scalar h =>
    cases space with
    | disabled => exact ⟨.released false, .disabled, _, rfl, rfl, .scalar trivial⟩
    | paged space => exact ⟨.released false, .paged space, _, rfl, rfl, .scalar h⟩
    | flat space =>
      obtain ⟨release, l', hlist, hcan', -⟩ := FreeList.release_spec h space.threshold hop
      refine ⟨.released true, .flat { space with free := l' }, _, ?_, ?_, .scalar hcan'⟩
      · simp [BatchOp.scalarStep, SessionSpace.isPaged, SessionSpace.isEnabled,
          SessionSpace.recordFreed, hlist]
      · simp [BatchOp.batchStep, ReservationBatch.releaseAggregate, SessionSpace.isPaged,
          SessionSpace.isEnabled, SessionSpace.recordFreed, hlist]

def Lends (space : SessionSpace) (batch : ReservationBatch) : Prop :=
  batch = space.indexedBatch ∨ batch = .scalar space ∨
    ∃ requests, batch = space.reservationBatch requests ∨
      batch = space.reservationBatchWithReturns requests

lemma Lends.answers (h : space.Canonical) (hb : Lends space batch) : Answers space batch space := by
  have hscalar : Answers space (.scalar space) space := .scalar h
  have hidx := answers_indexedBatch h
  have hbatch : ∀ requests, Answers space (space.reservationBatch requests) space := by
    intro requests
    unfold SessionSpace.reservationBatch
    simp only
    split_ifs
    · exact hscalar
    · exact hidx
  rcases hb with rfl | rfl | ⟨requests, rfl | rfl⟩
  · exact hidx
  · exact hscalar
  · exact hbatch requests
  · unfold SessionSpace.reservationBatchWithReturns
    split_ifs
    · exact hbatch requests
    · split
      · exact hidx
      · exact hbatch requests

/-- **Indexed batch reservation equals scalar reservation.** Over every run of reservations and
aggregate returns, a batch gives the answers of the scalar path, and when it is finished or
dropped it leaves the session that the scalar path leaves, with the same regions and totals. -/
theorem batch_eq_scalar (space : SessionSpace) (batch : ReservationBatch) (ops : List BatchOp)
    (hspace : space.Canonical) (hbatch : Lends space batch)
    (hops : AllowedRun BatchOp.scalarStep BatchOp.Contract space ops) :
    ∃ results space' batch', runAll BatchOp.scalarStep space ops = .ok (results, space') ∧
      runAll BatchOp.batchStep batch ops = .ok (results, batch') ∧
      batch'.finish.2.owned space = space' ∧ batch'.restore.owned space = space' := by
  obtain ⟨results, space', batch', hscalar, hrun, hans⟩ :=
    hops.simulates (fun s b => Answers space b s) (fun s b op hrel hop => by
      cases op with
      | reserve request => exact reserve_answers hrel request
      | releaseAggregate eoa extent => exact releaseAggregate_answers hrel eoa extent hop)
      (hbatch.answers hspace)
  refine ⟨results, space', batch', hscalar, hrun, ?_, hans.owned⟩
  show batch'.restore.restore.owned space = space'
  rw [ReservationBatch.restore_restore]
  exact hans.owned

/-- A batch over an empty flat space that takes back aggregate spare and reserves from it. -/
theorem batch_eq_scalar_flat :
    ∃ results space' batch',
      runAll BatchOp.scalarStep (.flat ⟨.new, 1⟩)
        [.releaseAggregate 1000 ⟨100, 32, by decide, by decide⟩,
          .reserve ⟨16, .raw, .raw, .compound, by decide⟩] = .ok (results, space') ∧
      runAll BatchOp.batchStep ((SessionSpace.flat ⟨.new, 1⟩).reservationBatchWithReturns 2)
        [.releaseAggregate 1000 ⟨100, 32, by decide, by decide⟩,
          .reserve ⟨16, .raw, .raw, .compound, by decide⟩] = .ok (results, batch') ∧
      batch'.finish.2.owned (.flat ⟨.new, 1⟩) = space' ∧
      batch'.restore.owned (.flat ⟨.new, 1⟩) = space' :=
  batch_eq_scalar (.flat ⟨.new, 1⟩) _ _ FreeList.canonical_new (.inr (.inr ⟨2, .inr rfl⟩))
    ⟨by simp [BatchOp.Contract], fun _ _ _ => ⟨trivial, fun _ _ _ => trivial⟩⟩

end Hdf5Pure.Space
