import Hdf5Pure.Space.Aggregator
import Hdf5Pure.Space.FreeListTheorems
import Hdf5Pure.Utils.Runs

/-!
# Conservation in the classic aggregators

Every byte below the end of allocation has one owner: an extent handed out or released, or the
unused part of a window. The proofs count owners, so that each step is an equation between counts.
-/

namespace Hdf5Pure.Space

open Checked

/-! ## Owners of a byte -/

/-- How many of the extents contain `x`. -/
def owners (x : ℕ) (l : List Extent) : ℕ := l.countP fun e => decide (e.start ≤ x ∧ x < e.stop)

@[simp] lemma owners_nil (x : ℕ) : owners x [] = 0 := rfl

@[simp] lemma owners_cons (x : ℕ) (e : Extent) (l : List Extent) :
    owners x (e :: l) = owners x l + if e.start ≤ x ∧ x < e.stop then 1 else 0 := by
  simp [owners, List.countP_cons]

@[simp] lemma owners_append (x : ℕ) (l m : List Extent) :
    owners x (l ++ m) = owners x l + owners x m := List.countP_append

variable {x : ℕ} {l : List Extent} {w : Aggregate} {c : AllocationClass}

lemma owners_eq_zero : owners x l = 0 ↔ ∀ e ∈ l, x ∉ e.bytes := by
  simp [owners, List.countP_eq_zero, Extent.mem_bytes]

lemma owners_pos : 0 < owners x l ↔ x ∈ covered l := by
  rw [Nat.pos_iff_ne_zero, ne_eq, owners_eq_zero, mem_covered]
  simp

lemma pairwise_of_owners (h : ∀ x, owners x l ≤ 1) : DisjointExtents l := by
  induction l with
  | nil => exact List.Pairwise.nil
  | cons e l ih =>
    refine List.pairwise_cons.mpr ⟨?_, ih fun x => ?_⟩
    · intro b hb
      rw [Set.disjoint_left]
      intro x hx hxb
      have hpos : 0 < owners x l := owners_pos.mpr (mem_covered.mpr ⟨b, hb, Extent.mem_bytes.mp hxb⟩)
      have hone := h x
      rw [owners_cons, if_pos (Extent.mem_bytes.mp hx)] at hone
      omega
    · have hone := h x
      rw [owners_cons] at hone
      omega

def cutAt (eoa : ℕ) (l : List Extent) : List Extent :=
  l.filterMap fun e => Extent.between e.start (min e.stop eoa)

lemma owners_between {s t : ℕ} (ht : t < 2 ^ 64) :
    owners x (Extent.between s t).toList = if s ≤ x ∧ x < t then 1 else 0 := by
  by_cases hst : s < t
  · obtain ⟨e, he, hs, ht'⟩ := Extent.exists_between hst ht
    simp [he, hs, ht']
  · rw [Extent.between_eq_none (not_lt.mp hst), if_neg (by omega)]
    rfl

lemma owners_cutAt (x eoa : ℕ) (l : List Extent) :
    owners x (cutAt eoa l) = if x < eoa then owners x l else 0 := by
  induction l with
  | nil => simp [cutAt]
  | cons e l ih =>
    have hlt := e.stop_lt_limit
    have hhead : cutAt eoa (e :: l) = (Extent.between e.start (min e.stop eoa)).toList ++ cutAt eoa l := by
      cases hb : Extent.between e.start (min e.stop eoa) with
      | none => simp [cutAt, hb]
      | some c => simp [cutAt, hb]
    rw [hhead, owners_append, owners_between (by omega), ih, owners_cons]
    split_ifs <;> omega

/-! ## Windows -/

/-- The number of unused parts of a window at `x`: one or none. -/
def spareAt (x : ℕ) (window : Option Aggregate) : ℕ :=
  owners x (window.bind Aggregate.unused).toList

@[simp] lemma spareAt_none (x : ℕ) : spareAt x none = 0 := rfl

@[simp] lemma spareAt_some (x : ℕ) (window : Aggregate) :
    spareAt x (some window) = if window.cursor ≤ x ∧ x < window.range.stop then 1 else 0 :=
  owners_between window.range.stop_lt_limit

lemma Aggregate.unused_len (window : Aggregate) :
    (window.unused.map Extent.len).getD 0 = window.range.stop - window.cursor := by
  unfold Aggregate.unused
  by_cases h : window.cursor < window.range.stop
  · obtain ⟨e, he, hs, ht⟩ := Extent.exists_between h window.range.stop_lt_limit
    rw [he]
    show e.len = _
    rw [Extent.len_eq, hs, ht]
  · rw [Extent.between_eq_none (not_lt.mp h)]
    show 0 = _
    omega

/-- `take` consumes the front of the unused part. -/
lemma Aggregate.take_spec {size : ℕ} (hpos : 0 < size) (hfits : w.cursor + size ≤ w.range.stop) :
    ∃ extent, w.take size = .ok (.ok extent, ⟨w.range, extent.stop⟩) ∧
      extent.start = w.cursor ∧ extent.stop = w.cursor + size := by
  have hlimit := w.range.stop_lt_limit
  obtain ⟨e, he, hs, hl⟩ := Extent.exists_new (s := w.cursor) hpos (by omega)
  have hstop := e.stop_eq
  refine ⟨e, ?_, hs, by omega⟩
  simp only [Aggregate.take, he]
  rw [assert_of (by simpa using (show e.stop ≤ w.range.stop by omega))]
  rfl

namespace ClassicAggregators

@[simp] lemma setWindow_window (aggregators : ClassicAggregators) (c : AllocationClass)
    (window : Option Aggregate) : (aggregators.setWindow c window).window c = window := by
  cases c <;> rfl

@[simp] lemma setWindow_window_other (aggregators : ClassicAggregators) (c : AllocationClass)
    (window : Option Aggregate) :
    (aggregators.setWindow c window).window c.other = aggregators.window c.other := by
  cases c <;> rfl

@[simp] lemma setWindow_other_window (aggregators : ClassicAggregators) (c : AllocationClass)
    (window : Option Aggregate) :
    (aggregators.setWindow c.other window).window c = aggregators.window c := by
  cases c <;> rfl

/-- The number of unused parts at `x`. -/
def spare (aggregators : ClassicAggregators) (x : ℕ) : ℕ :=
  spareAt x aggregators.metadata + spareAt x aggregators.raw

lemma spare_eq (aggregators : ClassicAggregators) (c : AllocationClass) (x : ℕ) :
    aggregators.spare x = spareAt x (aggregators.window c) +
      spareAt x (aggregators.window c.other) := by
  cases c with
  | metadata => rfl
  | raw => exact Nat.add_comm _ _

/-- The windows end at or below `eoa` and do not overlap. -/
structure Valid (aggregators : ClassicAggregators) (eoa : ℕ) : Prop where
  window : ∀ c w, aggregators.window c = some w →
    w.range.start ≤ w.cursor ∧ w.cursor ≤ w.range.stop ∧ w.range.stop ≤ eoa
  apart : ∀ c w w', aggregators.window c = some w → aggregators.window c.other = some w' →
    w.range.stop ≤ w'.range.start ∨ w'.range.stop ≤ w.range.start

lemma valid_new (eoa : ℕ) : new.Valid eoa := by
  refine ⟨fun c w h => ?_, fun c w w' h => ?_⟩ <;> cases c <;> cases h

variable {aggregators : ClassicAggregators} {eoa : ℕ}

lemma Valid.spareAt_eq_zero (h : aggregators.Valid eoa) (c : AllocationClass) (hx : eoa ≤ x) :
    spareAt x (aggregators.window c) = 0 := by
  cases hw : aggregators.window c with
  | none => rfl
  | some w =>
    have := h.window c w hw
    rw [spareAt_some, if_neg (by omega)]

lemma Valid.spare_eq_zero (h : aggregators.Valid eoa) (hx : eoa ≤ x) : aggregators.spare x = 0 := by
  rw [spare_eq aggregators .metadata, h.spareAt_eq_zero _ hx, h.spareAt_eq_zero _ hx]

lemma valid_of (c : AllocationClass) (hown : ∀ w, aggregators.window c = some w →
      w.range.start ≤ w.cursor ∧ w.cursor ≤ w.range.stop ∧ w.range.stop ≤ eoa)
    (hother : ∀ w, aggregators.window c.other = some w →
      w.range.start ≤ w.cursor ∧ w.cursor ≤ w.range.stop ∧ w.range.stop ≤ eoa)
    (hapart : ∀ w w', aggregators.window c = some w → aggregators.window c.other = some w' →
      w.range.stop ≤ w'.range.start ∨ w'.range.stop ≤ w.range.start) : aggregators.Valid eoa := by
  have hclass : ∀ d : AllocationClass, d = c ∨ d = c.other := by
    intro d
    cases c <;> cases d <;> simp [AllocationClass.other]
  have hback : c.other.other = c := by cases c <;> rfl
  refine ⟨fun d w hw => ?_, fun d w w' hw hw' => ?_⟩
  · rcases hclass d with rfl | rfl
    · exact hown w hw
    · exact hother w hw
  · rcases hclass d with rfl | rfl
    · exact hapart w w' hw hw'
    · rw [hback] at hw'
      exact (hapart w' w hw' hw).symm

/-- How a step moves bytes between the unused parts and `given`, the extents it reports: a byte that
stays below the end of allocation keeps its part or is given, a new one has exactly one, and one
that goes beyond it was unused. -/
structure Moves (spare : ℕ → ℕ) (eoa : ℕ) (given spare' : ℕ → ℕ) (eoa' : ℕ) : Prop where
  below : ∀ x, x < eoa' → given x + spare' x = if x < eoa then spare x else 1
  above : ∀ x, eoa' ≤ x → given x + spare' x = 0
  back : ∀ x, eoa' ≤ x → x < eoa → spare x = 1

/-- The other window's tail is given back: the end of allocation moves down to `eoa'`, over bytes
that were unused. -/
structure GivenBack (aggregators : ClassicAggregators) (eoa : ℕ) (c : AllocationClass) (eoa' : ℕ)
    (next : ClassicAggregators) : Prop where
  valid : next.Valid eoa'
  le : eoa' ≤ eoa
  own : next.window c = aggregators.window c
  below : ∀ x, x < eoa' → next.spare x = aggregators.spare x
  back : ∀ x, eoa' ≤ x → x < eoa → aggregators.spare x = 1

lemma givenBack_drop (h : aggregators.Valid eoa) (hother : aggregators.window c.other = some w)
    (hunused : w.cursor < w.range.stop) (hstop : w.range.stop = eoa) :
    GivenBack aggregators eoa c w.cursor (aggregators.setWindow c.other none) := by
  have hw := h.window _ _ hother
  -- the own window lies below the dropped one
  have hown : ∀ w', aggregators.window c = some w' →
      w'.range.start ≤ w'.cursor ∧ w'.cursor ≤ w'.range.stop ∧ w'.range.stop ≤ w.cursor := by
    intro w' hw'
    have h1 := h.window _ _ hw'
    have h2 := h.apart c w' w hw' hother
    have h3 := w'.range.start_lt_stop
    omega
  refine ⟨?_, by omega, by simp, ?_, ?_⟩
  · refine valid_of c (fun w' hw' => hown w' ?_) (by simp) (by simp)
    rwa [setWindow_other_window] at hw'
  · intro x hx
    rw [spare_eq _ c, spare_eq aggregators c, hother]
    simp only [setWindow_window, setWindow_other_window, spareAt_none, spareAt_some]
    rw [if_neg (by omega)]
  · intro x hx hxe
    rw [spare_eq _ c, hother]
    cases hw' : aggregators.window c with
    | none => rw [spareAt_none, spareAt_some, if_pos (by omega)]
    | some w' =>
      have := hown w' hw'
      rw [spareAt_some, spareAt_some, if_neg (by omega), if_pos (by omega)]

lemma giveBackOther_spec (h : aggregators.Valid eoa) (c : AllocationClass) :
    ∃ eoa' next, aggregators.giveBackOther eoa c = (eoa', next) ∧
      GivenBack aggregators eoa c eoa' next := by
  have hkeep : GivenBack aggregators eoa c eoa aggregators :=
    ⟨h, le_rfl, rfl, fun _ _ => rfl, by omega⟩
  unfold giveBackOther
  cases hother : aggregators.window c.other with
  | none => exact ⟨eoa, aggregators, rfl, hkeep⟩
  | some w =>
    simp only
    split_ifs with hcond
    · by_cases hunused : w.cursor < w.range.stop
      · obtain ⟨u, hu, hus, -⟩ := Extent.exists_between hunused w.range.stop_lt_limit
        simp only [Aggregate.unused, hu]
        exact ⟨u.start, _, rfl, hus ▸ givenBack_drop h hother hunused hcond.1⟩
      · rw [Aggregate.unused, Extent.between_eq_none (not_lt.mp hunused)]
        exact ⟨eoa, aggregators, rfl, hkeep⟩
    · exact ⟨eoa, aggregators, rfl, hkeep⟩

lemma GivenBack.moves {next : ClassicAggregators} {eoa' stop : ℕ}
    (h : GivenBack aggregators eoa c eoa' next) (hle : eoa' ≤ stop) {given spare' : ℕ → ℕ}
    (hgiven : ∀ x, given x + spare' x = next.spare x + if eoa' ≤ x ∧ x < stop then 1 else 0) :
    Moves aggregators.spare eoa given spare' stop := by
  have heoa := h.le
  refine ⟨fun x hx => ?_, fun x hx => ?_, fun x hx hxe => ?_⟩
  · rw [hgiven]
    by_cases hxe : x < eoa'
    · rw [h.below x hxe, if_neg (by omega), if_pos (by omega), Nat.add_zero]
    · rw [h.valid.spare_eq_zero (not_lt.mp hxe), if_pos (by omega)]
      split_ifs with hxe'
      · rw [h.back x (not_lt.mp hxe) hxe']
      · rfl
  · rw [hgiven, h.valid.spare_eq_zero (by omega), if_neg (by omega)]
  · exact h.back x (by omega) hxe

/-- What a successful allocation establishes. -/
structure Allocated (aggregators : ClassicAggregators) (eoa size : ℕ)
    (allocation : AggregationAllocation) (next : ClassicAggregators) : Prop where
  len : allocation.extent.len = size
  valid : next.Valid allocation.eoa
  moves : Moves aggregators.spare eoa
    (fun x => owners x (allocation.extent :: allocation.released.toList)) next.spare allocation.eoa

section

variable (h : aggregators.Valid eoa)

include h

lemma allocated_window {stop : ℕ} (hw : aggregators.window c = some w) {range extent : Extent}
    (hle : eoa ≤ stop) (hstart : range.start = w.range.start)
    (hstop : range.stop = w.range.stop ∧ stop = eoa ∨ w.range.stop = eoa ∧ range.stop = stop)
    (hes : extent.start = w.cursor) (het : extent.stop ≤ range.stop) :
    Allocated aggregators eoa extent.len ⟨extent, stop, none⟩
      (aggregators.setWindow c (some ⟨range, extent.stop⟩)) := by
  have hv := h.window c w hw
  have hpos := extent.start_lt_stop
  refine ⟨rfl, valid_of c ?_ ?_ ?_, ?_, ?_, ?_⟩
  · intro w' hw'
    rw [setWindow_window] at hw'
    cases hw'
    show range.start ≤ extent.stop ∧ extent.stop ≤ range.stop ∧ range.stop ≤ stop
    omega
  · intro w' hw'
    rw [setWindow_window_other] at hw'
    have := h.window _ _ hw'
    show w'.range.start ≤ w'.cursor ∧ w'.cursor ≤ w'.range.stop ∧ w'.range.stop ≤ stop
    omega
  · intro w₁ w₂ h₁ h₂
    rw [setWindow_window] at h₁
    rw [setWindow_window_other] at h₂
    cases h₁
    have h2 := h.window _ _ h₂
    have h3 := h.apart c w w₂ hw h₂
    have h4 := w₂.range.start_lt_stop
    show range.stop ≤ w₂.range.start ∨ w₂.range.stop ≤ range.start
    omega
  · intro x hx
    replace hx : x < stop := hx
    rw [spare_eq _ c, spare_eq aggregators c, hw, setWindow_window, setWindow_window_other]
    simp only [Option.toList_none, owners_cons, owners_nil, spareAt_some]
    by_cases hxe : x < eoa
    · rw [if_pos hxe]
      split_ifs <;> omega
    · rw [if_neg hxe, h.spareAt_eq_zero _ (not_lt.mp hxe)]
      split_ifs <;> omega
  · intro x hx
    replace hx : stop ≤ x := hx
    rw [spare_eq _ c, setWindow_window, setWindow_window_other, h.spareAt_eq_zero _ (by omega)]
    simp only [Option.toList_none, owners_cons, owners_nil, spareAt_some]
    split_ifs <;> omega
  · intro x hx hxe
    replace hx : stop ≤ x := hx
    omega

lemma reserveAtEoa_spec (size : ℕ+) (c : AllocationClass) :
    ∃ result next, aggregators.reserveAtEoa eoa size c = .ok (result, next) ∧
      ∀ allocation, result = .ok allocation → Allocated aggregators eoa size allocation next := by
  obtain ⟨eoa', next, hgive, hback⟩ := giveBackOther_spec h c
  have hsize := size.pos
  unfold reserveAtEoa
  simp only [hgive]
  split_ifs with hlarge
  · cases hnew : Extent.new eoa' size with
    | none => exact ⟨_, next, rfl, by simp⟩
    | some e =>
      obtain ⟨hs, hl⟩ := Extent.new_eq_some.mp hnew
      have hstop := e.stop_eq
      refine ⟨_, next, rfl, fun allocation ha => ?_⟩
      cases ha
      refine ⟨hl, ⟨fun d w hw => ?_, hback.valid.apart⟩,
        hback.moves (show eoa' ≤ e.stop by omega) fun x => ?_⟩
      · have := hback.valid.window d w hw
        show w.range.start ≤ w.cursor ∧ w.cursor ≤ w.range.stop ∧ w.range.stop ≤ e.stop
        omega
      · simp only [Option.toList_none, owners_cons, owners_nil, hs]
        omega
  · cases hnew : Extent.new eoa' aggregateBlockSize with
    | none => exact ⟨_, next, rfl, by simp⟩
    | some range =>
      obtain ⟨hs, hl⟩ := Extent.new_eq_some.mp hnew
      have hstop := range.stop_eq
      have hfits : eoa' + (size : ℕ) ≤ range.stop := by omega
      obtain ⟨e, htake, hes, het⟩ := Aggregate.take_spec (w := ⟨range, eoa'⟩) hsize hfits
      replace hes : e.start = eoa' := hes
      replace het : e.stop = eoa' + size := het
      simp only [htake, ok_bind]
      refine ⟨_, _, rfl, fun allocation ha => ?_⟩
      cases ha
      refine ⟨?_, valid_of c ?_ ?_ ?_,
        hback.moves (show eoa' ≤ range.stop by omega) fun x => ?_⟩
      · show e.len = _
        rw [Extent.len_eq]
        omega
      · intro w hw
        rw [setWindow_window] at hw
        cases hw
        show range.start ≤ e.stop ∧ e.stop ≤ range.stop ∧ range.stop ≤ range.stop
        omega
      · intro w hw
        rw [setWindow_window_other] at hw
        have := hback.valid.window _ _ hw
        show w.range.start ≤ w.cursor ∧ w.cursor ≤ w.range.stop ∧ w.range.stop ≤ range.stop
        omega
      · intro w w' hw hw'
        rw [setWindow_window] at hw
        rw [setWindow_window_other] at hw'
        cases hw
        have := hback.valid.window _ _ hw'
        right
        show w'.range.stop ≤ range.start
        omega
      · -- what is left of the replaced window is reported as released
        have hreleased : owners x (next.unused c).toList = spareAt x (next.window c) := rfl
        rw [spare_eq _ c, spare_eq next c, setWindow_window, setWindow_window_other]
        simp only [owners_cons, hreleased, spareAt_some]
        split_ifs <;> omega

/-- Every request returns, and a successful one only moves bytes. -/
lemma reserve_spec (size : ℕ+) (c : AllocationClass) :
    ∃ result next, aggregators.reserve eoa size c = .ok (result, next) ∧
      ∀ allocation, result = .ok allocation → Allocated aggregators eoa size allocation next := by
  have hsize := size.pos
  unfold reserve
  cases hw : aggregators.window c with
  | none => exact reserveAtEoa_spec h size c
  | some w =>
    have hv := h.window c w hw
    simp only [Aggregate.unused_len]
    by_cases hfits : (size : ℕ) ≤ w.range.stop - w.cursor
    · rw [if_pos hfits]
      obtain ⟨e, htake, hes, het⟩ := Aggregate.take_spec (w := w) hsize (by omega)
      simp only [htake, ok_bind]
      refine ⟨_, _, rfl, fun allocation ha => ?_⟩
      cases ha
      have hlen : e.len = size := by
        rw [Extent.len_eq]
        omega
      rw [← hlen]
      exact allocated_window h hw le_rfl rfl (.inl ⟨rfl, rfl⟩) hes (by omega)
    rw [if_neg hfits]
    by_cases hend : w.range.stop = eoa
    · -- the window ends the file and grows
      rw [if_pos hend]
      obtain ⟨growth, hgrowth⟩ : ∃ growth, growth =
        if aggregateBlockSize ≤ (size : ℕ) then (size : ℕ) else aggregateBlockSize := ⟨_, rfl⟩
      have hge : (size : ℕ) ≤ growth := by
        rw [hgrowth]
        split_ifs <;> omega
      rw [← hgrowth]
      cases hadd : checkedAdd eoa growth with
      | none => exact ⟨_, _, rfl, by simp⟩
      | some stop =>
        obtain ⟨hlimit, hstop⟩ := checkedAdd_eq_some.mp hadd
        obtain ⟨range, hrange, hrs, hrt⟩ :=
          Extent.exists_between (s := w.range.start) (t := stop) (by omega) (by omega)
        have hroom : w.cursor + (size : ℕ) ≤ range.stop := by omega
        obtain ⟨e, htake, hes, het⟩ := Aggregate.take_spec (w := ⟨range, w.cursor⟩) hsize hroom
        replace hes : e.start = w.cursor := hes
        replace het : e.stop = w.cursor + size := het
        simp only [hrange, expect_some, ok_bind, htake]
        refine ⟨_, _, rfl, fun allocation ha => ?_⟩
        cases ha
        have hlen : e.len = size := by
          rw [Extent.len_eq]
          omega
        rw [← hlen]
        exact allocated_window h hw (by omega) hrs (.inr ⟨hend, hrt⟩) hes (by omega)
    · rw [if_neg hend]
      exact reserveAtEoa_spec h size c

lemma Valid.minimumEoa_le : aggregators.minimumEoa ≤ eoa := by
  have hend : ∀ c, ((aggregators.window c).map fun w => w.range.stop).getD 0 ≤ eoa := by
    intro c
    cases hw : aggregators.window c with
    | none => exact Nat.zero_le _
    | some w => exact (h.window c w hw).2.2
  exact max_le (hend .metadata) (hend .raw)

/-- `allocate` returns. It hands out bytes on success and leaves the windows on an error. -/
lemma allocate_spec (size : ℕ+) (c : AllocationClass) :
    ∃ result next, aggregators.allocate eoa size c = .ok (result, next) ∧
      (∀ allocation, result = .ok allocation → Allocated aggregators eoa size allocation next) ∧
      ∀ error, result = .error error → next = aggregators := by
  obtain ⟨result, next, hreserve, hspec⟩ := reserve_spec h size c
  unfold allocate
  simp only [if_neg (not_lt.mpr h.minimumEoa_le), hreserve, ok_bind]
  cases result with
  | error error => exact ⟨_, _, rfl, by simp, fun _ _ => rfl⟩
  | ok allocation => exact ⟨_, _, rfl, hspec, by simp⟩

/-- A window that ends the file is dropped down to its used part, or it stays. -/
lemma trimTail_spec (c : AllocationClass) :
    ∃ eoa' window, trimTail eoa (aggregators.window c.other) = (eoa', window) ∧
      GivenBack aggregators eoa c eoa' (aggregators.setWindow c.other window) := by
  have hset : ∀ window, aggregators.window c.other = window →
      aggregators.setWindow c.other window = aggregators := by
    rintro _ rfl
    cases c <;> rfl
  have hkeep : GivenBack aggregators eoa c eoa (aggregators.setWindow c.other
      (aggregators.window c.other)) := by
    rw [hset _ rfl]
    exact ⟨h, le_rfl, rfl, fun _ _ => rfl, by omega⟩
  unfold trimTail
  cases hother : aggregators.window c.other with
  | none => exact ⟨eoa, none, rfl, hother ▸ hkeep⟩
  | some w =>
    rw [hother] at hkeep
    by_cases hunused : w.cursor < w.range.stop
    · obtain ⟨u, hu, hus, hut⟩ := Extent.exists_between hunused w.range.stop_lt_limit
      simp only [Option.bind_some, Aggregate.unused, hu]
      by_cases hend : u.stop = eoa
      · rw [if_pos hend]
        exact ⟨u.start, none, rfl, hus ▸ givenBack_drop h hother hunused (hut ▸ hend)⟩
      · rw [if_neg hend]
        exact ⟨eoa, some w, rfl, hkeep⟩
    · simp only [Option.bind_some, Aggregate.unused, Extent.between_eq_none (not_lt.mp hunused)]
      exact ⟨eoa, some w, rfl, hkeep⟩

/-- `releaseTail` only gives unused bytes back. -/
lemma releaseTail_spec :
    ∃ eoa' next, aggregators.releaseTail eoa = (.ok eoa', next) ∧ next.Valid eoa' ∧
      Moves aggregators.spare eoa (fun _ => 0) next.spare eoa' := by
  obtain ⟨eoa₁, metadata, htrim₁, hback₁⟩ := trimTail_spec h .raw
  obtain ⟨eoa₂, raw, htrim₂, hback₂⟩ := trimTail_spec hback₁.valid .metadata
  replace htrim₁ : trimTail eoa aggregators.metadata = (eoa₁, metadata) := htrim₁
  replace htrim₂ : trimTail eoa₁ aggregators.raw = (eoa₂, raw) := htrim₂
  refine ⟨eoa₂, ⟨metadata, raw⟩, ?_, hback₂.valid, ?_, ?_, ?_⟩
  · simp only [releaseTail, if_neg (not_lt.mpr h.minimumEoa_le), htrim₁, htrim₂]
  · intro x hx
    have hle₁ := hback₁.le
    have hle₂ := hback₂.le
    rw [if_pos (by omega), Nat.zero_add]
    exact (hback₂.below x hx).trans (hback₁.below x (by omega))
  · intro x hx
    rw [Nat.zero_add]
    exact hback₂.valid.spare_eq_zero hx
  · intro x hx hxe
    by_cases hx₁ : x < eoa₁
    · rw [← hback₁.below x hx₁]
      exact hback₂.back x hx hx₁
    · exact hback₁.back x (not_lt.mp hx₁) hxe

/-- `reset` reports every unused byte as released or gives it back. -/
lemma reset_spec :
    ∃ release, aggregators.reset eoa = (.ok release, new) ∧
      Moves aggregators.spare eoa
        (fun x => owners x (release.metadata.toList ++ release.raw.toList)) new.spare
        release.eoa := by
  obtain ⟨eoa', next, hrelease, -, hmoves⟩ := releaseTail_spec h
  refine ⟨⟨next.unused .metadata, next.unused .raw, eoa'⟩, by simp [reset, hrelease], ?_⟩
  have hgiven : ∀ x, owners x ((next.unused .metadata).toList ++ (next.unused .raw).toList) +
      new.spare x = 0 + next.spare x := by
    intro x
    rw [owners_append, Nat.zero_add]
    rfl
  refine ⟨fun x hx => (hgiven x).trans (hmoves.below x hx),
    fun x hx => (hgiven x).trans (hmoves.above x hx), hmoves.back⟩

/-- `reconcileEoa` keeps every unused byte, or leaves the windows. -/
lemma reconcileEoa_spec (eoa' : ℕ) :
    (∃ next, aggregators.reconcileEoa eoa' = (.ok (), next) ∧ next.Valid eoa' ∧
        next.spare = aggregators.spare) ∨
      ∃ error, aggregators.reconcileEoa eoa' = (.error error, aggregators) := by
  unfold reconcileEoa
  simp only
  split_ifs with hmin
  · exact .inr ⟨_, rfl⟩
  left
  obtain ⟨hm, hr⟩ := max_le_iff.mp (not_lt.mp hmin)
  have hkept : ∀ w w', forgetBeyond eoa' w = some w' → w = some w' ∧ w'.range.stop ≤ eoa' := by
    intro w w' hw
    simpa [forgetBeyond, Option.filter_eq_some_iff] using hw
  -- a forgotten window has no unused part
  have hspare : ∀ w, unusedEnd w ≤ eoa' → ∀ x, spareAt x (forgetBeyond eoa' w) = spareAt x w := by
    intro w hw x
    cases w with
    | none => rfl
    | some w =>
      by_cases hle : w.range.stop ≤ eoa'
      · rw [forgetBeyond, Option.filter_some, if_pos (by simpa using hle)]
      have hunused : ¬ w.cursor < w.range.stop := by
        intro hlt
        obtain ⟨u, hu, -⟩ := Extent.exists_between hlt w.range.stop_lt_limit
        have hsome : w.unused.isSome = true := by simp [Aggregate.unused, hu]
        rw [unusedEnd, Option.filter_some, if_pos hsome] at hw
        exact hle hw
      simp only [forgetBeyond, Option.filter_some, decide_eq_true_eq, if_neg hle, spareAt_none,
        spareAt_some]
      rw [if_neg (by omega)]
  refine ⟨_, rfl, valid_of .metadata ?_ ?_ ?_, ?_⟩
  · intro w hw
    obtain ⟨hw, hle⟩ := hkept _ w hw
    have := h.window .metadata w hw
    omega
  · intro w hw
    obtain ⟨hw, hle⟩ := hkept _ w hw
    have := h.window .raw w hw
    omega
  · intro w w' hw hw'
    exact h.apart .metadata w w' (hkept _ w hw).1 (hkept _ w' hw').1
  · funext x
    show spareAt x _ + spareAt x _ = _
    rw [hspare _ hm, hspare _ hr]
    rfl

end

end ClassicAggregators

end Hdf5Pure.Space
