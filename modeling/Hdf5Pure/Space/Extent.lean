import Hdf5Pure.Utils.Checked
import Hdf5Pure.Utils.IntervalLists

/-!
# Extents of stored addresses

`crates/hdf5-pure-space/src/extent.rs`. An extent is a nonempty interval of stored addresses
whose exclusive end is at most `u64::MAX`; both facts are fields, as the source's private
constructor guarantees them. Page sizes come from
`crates/hdf5-pure-core/src/file_space_info.rs`.
-/

namespace Hdf5Pure.Space

open IntervalLists

/-- A nonempty interval of stored addresses with a representable exclusive end. -/
@[ext] structure Extent where
  start : ℕ
  len : ℕ
  len_pos : 0 < len
  stop_lt : start + len < 2 ^ 64
deriving DecidableEq, Repr

@[ext] structure FileSpacePageSize where
  get : ℕ
  min_le : 512 ≤ get
  le_max : get ≤ 2 ^ 30
deriving DecidableEq, Repr

lemma FileSpacePageSize.get_pos (p : FileSpacePageSize) : 0 < p.get := by
  have := p.min_le
  omega

def FileSpacePageSize.unit (p : FileSpacePageSize) : ℕ+ := ⟨p.get, by have := p.min_le; omega⟩

@[simp] lemma FileSpacePageSize.coe_unit (p : FileSpacePageSize) : (p.unit : ℕ) = p.get := rfl

variable {e : Extent}

namespace Extent

/-- One past the last byte, `Extent::end`. -/
def stop (e : Extent) : ℕ := e.start + e.len

/-- `[start, start + len)`, or `none` for an empty or overflowing range. -/
def new (start len : ℕ) : Option Extent :=
  if h : 0 < len ∧ start + len < 2 ^ 64 then some ⟨start, len, h.1, h.2⟩ else none

def between (start stop : ℕ) : Option Extent :=
  (checkedSub stop start).bind (new start)

def adjoins (e other : Extent) : Bool := e.stop == other.start || other.stop == e.start

/-- The extents touch at an address that is not a multiple of `unit`. -/
def adjoinsWithin (e other : Extent) (unit : ℕ) : Bool :=
  (e.stop == other.start && !(other.start % unit == 0))
    || (e.start == other.stop && !(other.stop % unit == 0))

/-- The extent is at least `unit` bytes long and touches `other` at a multiple of `unit`. -/
def adjoinsWholeUnit (e other : Extent) (unit : ℕ) : Bool :=
  decide (unit ≤ e.len)
    && ((e.stop == other.start && other.start % unit == 0)
      || (e.start == other.stop && other.stop % unit == 0))

def intersection (e other : Extent) : Option Extent :=
  let start := max e.start other.start
  let stop := min e.stop other.stop
  if start < stop then new start (stop - start) else none

def blockCapacity (e : Extent) (pageSize : FileSpacePageSize) (size : ℕ) : ℕ :=
  let head := min e.len (pageSize.get - e.start % pageSize.get)
  if size < pageSize.get then max head (min (e.len - head) pageSize.get)
  else if e.start % pageSize.get = 0 then e.len
  else e.len - head

/-- The whole `align`-sized units inside the extent. -/
def alignedInterior (e : Extent) (align : ℕ) : Option Extent :=
  if align = 0 then none
  else (checkedNextMultipleOf e.start align).bind fun start =>
    between start (e.stop / align * align)

def bytes (e : Extent) : Set ℕ := Set.Ico e.start e.stop

/-! ## Basic facts -/

lemma stop_eq (e : Extent) : e.stop = e.start + e.len := rfl

lemma start_lt_stop (e : Extent) : e.start < e.stop := by
  have := e.len_pos
  rw [stop_eq]
  omega

lemma stop_lt_limit (e : Extent) : e.stop < 2 ^ 64 := e.stop_lt

lemma len_eq (e : Extent) : e.len = e.stop - e.start := by
  rw [stop_eq]
  omega

@[simp] lemma mem_bytes {x : ℕ} : x ∈ e.bytes ↔ e.start ≤ x ∧ x < e.stop := Iff.rfl

lemma new_eq_some {s n : ℕ} : new s n = some e ↔ e.start = s ∧ e.len = n := by
  unfold new
  split
  · rename_i h
    rw [Option.some_inj]
    exact ⟨fun he => he ▸ ⟨rfl, rfl⟩, fun he => Extent.ext he.1.symm he.2.symm⟩
  · rename_i h
    simp only [reduceCtorEq, false_iff, not_and]
    rintro rfl rfl
    exact h ⟨e.len_pos, e.stop_lt⟩

lemma between_eq_some {s t : ℕ} : between s t = some e ↔ e.start = s ∧ e.stop = t := by
  have hpos := e.start_lt_stop
  have hlen := e.len_eq
  simp only [between, Option.bind_eq_some_iff, checkedSub_eq_some, new_eq_some]
  constructor
  · rintro ⟨n, ⟨hle, rfl⟩, rfl, hn⟩
    exact ⟨rfl, by omega⟩
  · rintro ⟨rfl, rfl⟩
    exact ⟨_, ⟨hpos.le, rfl⟩, rfl, hlen⟩

lemma between_eq_none {s t : ℕ} (h : t ≤ s) : between s t = none := by
  rw [Option.eq_none_iff_forall_ne_some]
  intro e he
  obtain ⟨rfl, rfl⟩ := between_eq_some.mp he
  exact absurd e.start_lt_stop (not_lt.mpr h)

lemma exists_between {s t : ℕ} (h : s < t) (ht : t < 2 ^ 64) :
    ∃ e, between s t = some e ∧ e.start = s ∧ e.stop = t := by
  have hlt : s + (t - s) < 2 ^ 64 := by omega
  refine ⟨⟨s, t - s, by omega, hlt⟩, ?_, rfl, ?_⟩
  · exact between_eq_some.mpr ⟨rfl, by rw [stop_eq]; exact Nat.add_sub_of_le h.le⟩
  · rw [stop_eq]
    exact Nat.add_sub_of_le h.le

lemma exists_new {s n : ℕ} (h : 0 < n) (hlt : s + n < 2 ^ 64) :
    ∃ e, new s n = some e ∧ e.start = s ∧ e.len = n :=
  ⟨⟨s, n, h, hlt⟩, new_eq_some.mpr ⟨rfl, rfl⟩, rfl, rfl⟩

lemma intersection_eq_some {a b : Extent} :
    a.intersection b = some e ↔ e.start = max a.start b.start ∧ e.stop = min a.stop b.stop := by
  have hpos := e.start_lt_stop
  have hlen := e.len_eq
  simp only [intersection, Option.ite_none_right_eq_some, new_eq_some]
  constructor
  · rintro ⟨hlt, h1, h2⟩
    exact ⟨h1, by omega⟩
  · rintro ⟨h1, h2⟩
    exact ⟨by omega, h1, by omega⟩

lemma intersection_eq_none {a b : Extent} (h : a.intersection b = none) :
    a.stop ≤ b.start ∨ b.stop ≤ a.start := by
  have ha := a.start_lt_stop
  have hb := b.start_lt_stop
  by_contra hc
  have hlt : min a.stop b.stop < 2 ^ 64 := lt_of_le_of_lt (min_le_left _ _) a.stop_lt_limit
  obtain ⟨e, he, hes, het⟩ := exists_between (s := max a.start b.start)
    (by omega) hlt
  rw [intersection_eq_some.mpr ⟨hes, het⟩] at h
  cases h

/-- The aligned interior starts and ends on a boundary and lies inside the extent. -/
lemma alignedInterior_spec {i : Extent} {align : ℕ} (h : e.alignedInterior align = some i) :
    align ∣ i.start ∧ align ∣ i.stop ∧ e.start ≤ i.start ∧ i.start < e.start + align ∧
      i.stop ≤ e.stop ∧ e.stop < i.stop + align := by
  unfold alignedInterior at h
  split at h
  · cases h
  obtain ⟨s, hs, hb⟩ := Option.bind_eq_some_iff.mp h
  obtain ⟨hpos, hdvd, hle, hlt, -⟩ := checkedNextMultipleOf_spec hs
  obtain ⟨rfl, hstop⟩ := between_eq_some.mp hb
  have hdiv := Nat.div_add_mod e.stop align
  have hmod := Nat.mod_lt e.stop hpos
  rw [Nat.mul_comm] at hdiv
  exact ⟨hdvd, hstop ▸ Nat.dvd_mul_left _ _, hle, hlt, by omega, by omega⟩

end Extent

end Hdf5Pure.Space
