import Hdf5Pure.Image.BufferedTheorems

/-!
# Contents of a buffered file

A state is coherent with a content when the runs hold bytes of the content, the file has the content
wherever no run is pending, and the runs cover what the file does not have yet. A flush keeps the
content, also when a write fails part-way.
-/

namespace Hdf5Pure.Image

open List

open Edit (Error)

/-! ## Files -/

lemma le_length_padded (disk : Bytes) (offset : ℕ) :
    offset ≤ (disk ++ replicate (offset - disk.length) (0 : UInt8)).length := by
  rw [length_append, length_replicate]
  omega

lemma getElem?_fileWrite (disk : Bytes) (offset : ℕ) (bytes : Bytes) {a : ℕ}
    (ha : a < disk.length ∨ (offset ≤ a ∧ a < offset + bytes.length)) :
    (fileWrite disk offset bytes)[a]? =
      if offset ≤ a ∧ a < offset + bytes.length then bytes[a - offset]? else disk[a]? := by
  unfold fileWrite
  by_cases hempty : bytes.isEmpty
  · rw [if_pos hempty, if_neg]
    rw [isEmpty_iff.mp hempty, length_nil]
    omega
  rw [if_neg hempty, getElem?_patch (le_length_padded disk offset)]
  by_cases hin : offset ≤ a ∧ a < offset + bytes.length
  · rw [if_pos hin, if_pos hin]
  · rw [if_neg hin, if_neg hin, getElem?_append_left (ha.resolve_right hin)]

lemma length_fileWrite {disk : Bytes} {offset : ℕ} {bytes : Bytes} :
    (fileWrite disk offset bytes).length =
      if bytes = [] then disk.length else max disk.length (offset + bytes.length) := by
  unfold fileWrite
  by_cases hempty : bytes = []
  · simp [hempty]
  rw [if_neg hempty, if_neg (by simpa using hempty), length_patch (le_length_padded disk offset),
    length_append, length_replicate]
  omega

/-- With a zero for every byte it does not have, a file changes at the bytes written only. -/
lemma getD_fileWrite (disk : Bytes) (offset : ℕ) (bytes : Bytes) (a : ℕ) :
    (fileWrite disk offset bytes)[a]?.getD 0 =
      if offset ≤ a ∧ a < offset + bytes.length then bytes[a - offset]?.getD 0
      else disk[a]?.getD 0 := by
  by_cases hin : offset ≤ a ∧ a < offset + bytes.length
  · rw [getElem?_fileWrite _ _ _ (.inr hin), if_pos hin, if_pos hin]
  by_cases hlow : a < disk.length
  · rw [getElem?_fileWrite _ _ _ (.inl hlow), if_neg hin, if_neg hin]
  -- past the old end there are zeros, or nothing
  rw [if_neg hin, getElem?_eq_none (l := disk) (by omega)]
  unfold fileWrite
  split
  · rw [getElem?_eq_none (by omega)]
  · rw [getElem?_patch (le_length_padded disk offset), if_neg hin,
      getElem?_append_right (by omega), getElem?_replicate]
    split <;> rfl

variable {v tail : Bytes} {k : ℕ} {rest : RunMap UInt8}

namespace BufferedWrites

/-- The file has the byte of the content, or the content a zero that the file does not have yet. -/
def Written (b : BufferedWrites) (content : Bytes) (a : ℕ) : Prop :=
  b.disk[a]?.getD 0 = content[a]?.getD 0

/-- The pending runs and the file together are `content`. -/
structure Coherent (b : BufferedWrites) (content : Bytes) : Prop where
  apart : b.runs.Apart
  pending : b.pendingBytes = b.runs.total
  held : ∀ {a x}, b.runs.Holds a x → content[a]? = some x
  clean : ∀ {a}, a < b.onDiskLen → (∀ x, ¬ b.runs.Holds a x) → b.disk[a]? = content[a]?
  onDisk_le : b.onDiskLen ≤ b.disk.length
  disk_le : b.disk.length ≤ content.length
  covered : ∀ {a}, b.onDiskLen ≤ a → a < content.length → ∃ x, b.runs.Holds a x

variable {b b' : BufferedWrites} {content : Bytes}

lemma coherent_new (disk : Bytes) : (new disk).Coherent disk where
  apart := RunMap.apart_empty
  pending := rfl
  held := fun h => absurd h (RunMap.not_holds_empty _ _)
  clean := fun _ _ => rfl
  onDisk_le := le_rfl
  disk_le := le_rfl
  covered := fun hle hlt => absurd hlt (Nat.not_lt.mpr hle)

lemma Coherent.frame (h : b.Coherent content) (faults : List (Option ℕ)) (mode : WriteBuffering) :
    Coherent { b with faults := faults, mode := mode } content :=
  { h with }

lemma Coherent.disk_eq (h : b.Coherent content) (hempty : b.runs = .empty) :
    b.disk = content ∧ b.onDiskLen = content.length := by
  have hnone : ∀ a x, ¬ b.runs.Holds a x := by
    rw [hempty]
    exact RunMap.not_holds_empty
  have honDisk := h.onDisk_le
  have hdisk := h.disk_le
  have hlen : content.length ≤ b.onDiskLen := by
    by_contra hlt
    obtain ⟨x, hx⟩ := h.covered le_rfl (by omega)
    exact hnone _ _ hx
  refine ⟨?_, by omega⟩
  apply ext_getElem?
  intro a
  by_cases ha : a < b.onDiskLen
  · exact h.clean ha (hnone a)
  · rw [getElem?_eq_none (by omega), getElem?_eq_none (by omega)]

lemma Coherent.stop_le (h : b.Coherent content) (hk : b.runs.get? k = some v) :
    k + v.length ≤ content.length := by
  have hpos := List.length_pos_iff.mpr (h.apart.nonempty hk)
  obtain ⟨x, hx⟩ := RunMap.exists_holds hk (a := k + v.length - 1) (by omega) (by omega)
  have hlast := (List.getElem?_eq_some_iff.mp (h.held hx)).1
  omega

lemma Coherent.run_eq (h : b.Coherent content) (hk : b.runs.get? k = some v) :
    v = slice content k v.length := by
  apply ext_getElem?
  intro i
  rw [getElem?_slice]
  by_cases hi : i < v.length
  · have hget : v[k + i - k]? = some v[i] := by
      rw [Nat.add_sub_cancel_left]
      exact getElem?_eq_getElem hi
    rw [if_pos hi, h.held ⟨k, v, hk, by omega, hget⟩, getElem?_eq_getElem hi]
  · rw [if_neg hi, getElem?_eq_none (by omega)]

lemma Coherent.of_slices (h : b.Coherent content) {runs : RunMap UInt8} (hapart : runs.Apart)
    (hslices : ∀ {k v}, runs.get? k = some v → v = slice content k v.length)
    (hreach : ∀ {a x}, b.runs.Holds a x → ∃ y, runs.Holds a y) :
    Coherent { b with runs := runs, pendingBytes := runs.total } content where
  apart := hapart
  pending := rfl
  held := by
    rintro a x ⟨k, v, hk, hle, hget⟩
    rw [hslices hk, getElem?_slice, Option.ite_none_right_eq_some, Nat.add_sub_cancel' hle] at hget
    exact hget.2
  clean := fun ha hnone => h.clean ha fun _ hx => (hreach hx).elim hnone
  onDisk_le := h.onDisk_le
  disk_le := h.disk_le
  covered := fun hle hlt => (h.covered hle hlt).elim fun _ => hreach

/-! ## The run in hand -/

/-- A popped run put back leaves the map as it was. -/
lemma restore_popFirst {start : ℕ} {bytes : Bytes} (hpend : b.pendingBytes = b.runs.total)
    (hpop : b.runs.popFirst = some ((start, bytes), rest)) :
    ({ b with runs := rest, pendingBytes := b.pendingBytes - bytes.length }).restore start bytes =
      b := by
  obtain ⟨hruns, hgt, -⟩ := OrdMap.popFirst_eq_some hpop
  have hnone : rest.get? start = none := OrdMap.get?_eq_none_of_lt hgt
  have htotal : b.runs.total = rest.total + bytes.length := by
    rw [hruns, RunMap.total_insert bytes hnone]
  have hcount : b.pendingBytes - bytes.length + bytes.length = b.pendingBytes := by omega
  simp only [restore, ← hruns, hcount]

/-- The run in hand comes before every pending one, and together they are the content. -/
structure InHand (b : BufferedWrites) (start : ℕ) (bytes content : Bytes) : Prop where
  coherent : (b.restore start bytes).Coherent content
  first : ∀ {k v}, b.runs.get? k = some v → start < k

namespace InHand

variable {start : ℕ} {bytes : Bytes}

lemma get?_start (h : b.InHand start bytes content) : b.runs.get? start = none :=
  OrdMap.get?_eq_none_of_lt fun _ _ => h.first

lemma get?_restore (h : b.InHand start bytes content) (hk : b.runs.get? k = some v) :
    (b.restore start bytes).runs.get? k = some v :=
  OrdMap.get?_insert_eq_some.mpr (.inr ⟨(h.first hk).ne', hk⟩)

lemma get?_hand (b : BufferedWrites) (start : ℕ) (bytes : Bytes) :
    (b.restore start bytes).runs.get? start = some bytes :=
  OrdMap.get?_insert_self _ _ _

section

variable (h : b.InHand start bytes content)

include h

lemma pending : b.pendingBytes = b.runs.total := by
  have hpend := h.coherent.pending
  have htotal : (b.restore start bytes).runs.total = b.runs.total + bytes.length :=
    RunMap.total_insert bytes h.get?_start
  rw [htotal] at hpend
  exact Nat.add_right_cancel hpend

lemma apart : b.runs.Apart :=
  ⟨fun hk => h.coherent.apart.nonempty (h.get?_restore hk),
    fun hk hk' => h.coherent.apart.apart (h.get?_restore hk) (h.get?_restore hk')⟩

/-- What is held with the run in hand is held by it or by a pending run. -/
lemma holds_iff {a : ℕ} {x : UInt8} :
    (b.restore start bytes).runs.Holds a x ↔
      (start ≤ a ∧ bytes[a - start]? = some x) ∨ b.runs.Holds a x := by
  constructor
  · rintro ⟨k, v, hk, hle, hget⟩
    rcases OrdMap.get?_insert_eq_some.mp hk with ⟨rfl, rfl⟩ | ⟨-, hk⟩
    · exact .inl ⟨hle, hget⟩
    · exact .inr ⟨k, v, hk, hle, hget⟩
  · rintro (⟨hle, hget⟩ | ⟨k, v, hk, hle, hget⟩)
    · exact ⟨start, bytes, get?_hand b start bytes, hle, hget⟩
    · exact ⟨k, v, h.get?_restore hk, hle, hget⟩

lemma nonempty : bytes ≠ [] :=
  h.coherent.apart.nonempty (get?_hand b start bytes)

lemma stop_le : start + bytes.length ≤ content.length :=
  h.coherent.stop_le (get?_hand b start bytes)

lemma bytes_eq : bytes = slice content start bytes.length :=
  h.coherent.run_eq (get?_hand b start bytes)

/-- The pending runs lie past the run in hand. -/
lemma stop_lt (hk : b.runs.get? k = some v) : start + bytes.length < k :=
  h.coherent.apart.apart (get?_hand b start bytes) (h.get?_restore hk) (h.first hk)

lemma readGap_eq (hcontent : content.length < 2 ^ 64) {next : ℕ}
    (hnext : b.runs.get? next = some tail) (hfirst : ∀ k v, b.runs.get? k = some v → next ≤ k)
    (honDisk : next ≤ b.onDiskLen) :
    b.readGap (start + bytes.length) next =
      .ok (slice content (start + bytes.length) (next - (start + bytes.length))) := by
  have hlt := h.stop_lt hnext
  have hdisk : b.onDiskLen ≤ b.disk.length := h.coherent.onDisk_le
  have hdisk' : b.disk.length ≤ content.length := h.coherent.disk_le
  have hadd : checkedAdd (start + bytes.length) (next - (start + bytes.length)) = some next := by
    rw [checkedAdd_eq_some]
    omega
  unfold readGap readAtHandle
  rw [if_pos hlt, hadd]
  simp only
  rw [if_neg (by omega), if_neg (by omega)]
  congr 1
  -- no run reaches between the run in hand and the next one
  refine slice_congr fun a hlow hhigh => h.coherent.clean (show _ < b.onDiskLen by omega) ?_
  intro x hx
  rcases h.holds_iff.mp hx with ⟨hle, hget⟩ | ⟨k, v, hk, hle, -⟩
  · have hbound := RunMap.lt_of_getElem? hle hget
    omega
  · have hge := hfirst k v hk
    omega

/-- Joining the next run to the one in hand, with the bytes of the content between them. -/
lemma join {next : ℕ} (hpop : b.runs.popFirst = some ((next, tail), rest)) :
    InHand { b with runs := rest, pendingBytes := b.pendingBytes - tail.length } start
      (bytes ++ slice content (start + bytes.length) (next - (start + bytes.length)) ++ tail)
      content := by
  obtain ⟨hruns, hafter, -⟩ := OrdMap.popFirst_eq_some hpop
  have hnext : b.runs.get? next = some tail := (OrdMap.get?_of_popFirst hpop).mpr (.inl ⟨rfl, rfl⟩)
  have hrest : ∀ {k v}, rest.get? k = some v → b.runs.get? k = some v :=
    fun hk => (OrdMap.get?_of_popFirst hpop).mpr (.inr ⟨hafter _ _ hk, hk⟩)
  have hnone : rest.get? next = none := OrdMap.get?_eq_none_of_lt hafter
  have hfirst : ∀ {k v}, rest.get? k = some v → start < k := fun hk => h.first (hrest hk)
  have hlt := h.stop_lt hnext
  have htail := h.coherent.stop_le (h.get?_restore hnext)
  -- the joined run is one slice of the content
  have hmerged : bytes ++ slice content (start + bytes.length) (next - (start + bytes.length)) ++
      tail = slice content start (next + tail.length - start) := by
    have hgap : start + (bytes.length + (next - (start + bytes.length))) = next := by omega
    have hlen : bytes.length + (next - (start + bytes.length)) + tail.length =
        next + tail.length - start := by omega
    have hslices := slice_append content start
      (bytes.length + (next - (start + bytes.length))) tail.length
    rw [hgap, hlen, ← h.coherent.run_eq (h.get?_restore hnext), ← slice_append,
      ← h.bytes_eq] at hslices
    exact hslices
  rw [hmerged]
  have hlen : (slice content start (next + tail.length - start)).length =
      next + tail.length - start := length_slice (by omega)
  have hslice : slice content start (next + tail.length - start) =
      slice content start (slice content start (next + tail.length - start)).length := by
    rw [hlen]
  generalize slice content start (next + tail.length - start) = merged at hlen hslice ⊢
  have hcases : ∀ {k v}, (rest.insert start merged).get? k = some v →
      (k = start ∧ v = merged) ∨ (start < k ∧ next < k ∧ b.runs.get? k = some v) := by
    intro k v hk
    exact (OrdMap.get?_insert_eq_some.mp hk).imp_right fun hk =>
      ⟨hfirst hk.2, hafter k v hk.2, hrest hk.2⟩
  have hapart : RunMap.Apart (rest.insert start merged) := by
    constructor
    · intro k v hk
      rcases hcases hk with ⟨-, rfl⟩ | ⟨-, -, hold⟩
      · apply length_pos_iff.mp
        omega
      · exact h.apart.nonempty hold
    · intro k v k' v' hk hk' hless
      rcases hcases hk with ⟨rfl, rfl⟩ | ⟨hk, -, hold⟩
      · rcases hcases hk' with ⟨rfl, -⟩ | ⟨-, hgt, hold'⟩
        · omega
        · have hgap := h.apart.apart hnext hold' hgt
          omega
      · rcases hcases hk' with ⟨rfl, -⟩ | ⟨-, -, hold'⟩
        · omega
        · exact h.apart.apart hold hold' hless
  have hstart := OrdMap.get?_insert_self rest start merged
  have hcoh : Coherent { b with
      runs := rest.insert start merged
      pendingBytes := RunMap.total (rest.insert start merged) } content := by
    apply h.coherent.of_slices hapart
    · intro k v hk
      rcases hcases hk with ⟨rfl, rfl⟩ | ⟨-, -, hold⟩
      · exact hslice
      · exact h.coherent.run_eq (h.get?_restore hold)
    · intro a x hx
      rcases h.holds_iff.mp hx with ⟨hle, hget⟩ | ⟨k, v, hk, hle, hget⟩
      · have hbound := RunMap.lt_of_getElem? hle hget
        exact RunMap.exists_holds hstart hle (by omega)
      have hbound := RunMap.lt_of_getElem? hle hget
      rcases (OrdMap.get?_of_popFirst hpop).mp hk with ⟨rfl, rfl⟩ | ⟨-, hk⟩
      · exact RunMap.exists_holds hstart (by omega) (by omega)
      · exact RunMap.exists_holds (OrdMap.get?_insert_eq_some.mpr (.inr ⟨(hfirst hk).ne', hk⟩))
          hle hbound
  have hpend : b.pendingBytes - tail.length + merged.length =
      RunMap.total (rest.insert start merged) := by
    have hold : b.runs.total = rest.total + tail.length := by
      rw [hruns, RunMap.total_insert tail hnone]
    have hnew : rest.get? start = none := OrdMap.get?_eq_none_of_lt fun _ _ => hfirst
    rw [RunMap.total_insert merged hnew, h.pending]
    omega
  rw [← hpend] at hcoh
  exact ⟨hcoh, hfirst⟩

/-- A write that fails part-way changes the file under the run only, which goes back. -/
lemma restore_issued (n : ℕ) (faults : List (Option ℕ)) :
    Coherent ({ b with
      disk := fileWrite b.disk start (bytes.take n), faults := faults }.restore start bytes)
      content where
  apart := h.coherent.apart
  pending := h.coherent.pending
  held := h.coherent.held
  clean := by
    intro a ha hnone
    have hdisk : b.onDiskLen ≤ b.disk.length := h.coherent.onDisk_le
    have hout : ¬ (start ≤ a ∧ a < start + (bytes.take n).length) := by
      rintro ⟨hle, hlt⟩
      rw [length_take] at hlt
      obtain ⟨x, hx⟩ := RunMap.exists_holds (get?_hand b start bytes) hle (by omega)
      exact hnone x hx
    show (fileWrite b.disk start (bytes.take n))[a]? = content[a]?
    rw [getElem?_fileWrite _ _ _ (.inl (lt_of_lt_of_le ha hdisk)), if_neg hout]
    exact h.coherent.clean ha hnone
  onDisk_le := by
    have hdisk : b.onDiskLen ≤ b.disk.length := h.coherent.onDisk_le
    show b.onDiskLen ≤ (fileWrite b.disk start (bytes.take n)).length
    rw [length_fileWrite]
    split_ifs <;> omega
  disk_le := by
    have hdisk : b.disk.length ≤ content.length := h.coherent.disk_le
    have hstop := h.stop_le
    show (fileWrite b.disk start (bytes.take n)).length ≤ content.length
    rw [length_fileWrite, length_take]
    split_ifs <;> omega
  covered := h.coherent.covered

/-- Writing bytes of the run in hand unwrites nothing. -/
lemma written {a : ℕ} (hwritten : b.Written content a) (n : ℕ) :
    (fileWrite b.disk start (bytes.take n))[a]?.getD 0 = content[a]?.getD 0 := by
  rw [getD_fileWrite]
  split
  · rename_i hin
    rw [length_take] at hin
    rw [getElem?_take_of_lt (by omega), h.bytes_eq, getElem?_slice, if_pos (by omega),
      Nat.add_sub_cancel' hin.1]
  · exact hwritten

/-- A write that succeeds takes the run out of memory. -/
lemma issued (faults : List (Option ℕ)) :
    Coherent { b with
      disk := fileWrite b.disk start bytes
      faults := faults
      onDiskLen := max b.onDiskLen (start + bytes.length) } content := by
  have honDisk : b.onDiskLen ≤ b.disk.length := h.coherent.onDisk_le
  have hdisk : b.disk.length ≤ content.length := h.coherent.disk_le
  have hstop := h.stop_le
  have hlen : (fileWrite b.disk start bytes).length = max b.disk.length (start + bytes.length) := by
    rw [length_fileWrite, if_neg h.nonempty]
  refine ⟨h.apart, h.pending, ?_, ?_, ?_, ?_, ?_⟩
  · intro a x hx
    exact h.coherent.held (h.holds_iff.mpr (.inr hx))
  · intro a ha hnone
    show (fileWrite b.disk start bytes)[a]? = content[a]?
    by_cases hin : start ≤ a ∧ a < start + bytes.length
    · rw [getElem?_fileWrite _ _ _ (.inr hin), if_pos hin, h.bytes_eq, getElem?_slice,
        if_pos (by omega), Nat.add_sub_cancel' hin.1]
    have hnone' : ∀ x, ¬ (b.restore start bytes).runs.Holds a x := by
      intro x hx
      rcases h.holds_iff.mp hx with ⟨hle, hget⟩ | hx
      · exact hin ⟨hle, RunMap.lt_of_getElem? hle hget⟩
      · exact hnone x hx
    -- what lies before the run is on disk or held by a run
    have hlow : a < b.onDiskLen := by
      by_contra hge
      have hmax : a < max b.onDiskLen (start + bytes.length) := ha
      obtain ⟨x, hx⟩ := h.coherent.covered (show b.onDiskLen ≤ a by omega) (by omega)
      exact hnone' x hx
    rw [getElem?_fileWrite _ _ _ (.inl (by omega)), if_neg hin]
    exact h.coherent.clean hlow hnone'
  · show max b.onDiskLen (start + bytes.length) ≤ (fileWrite b.disk start bytes).length
    omega
  · show (fileWrite b.disk start bytes).length ≤ content.length
    omega
  · intro a hle hlt
    have hmax : max b.onDiskLen (start + bytes.length) ≤ a := hle
    obtain ⟨x, hx⟩ := h.coherent.covered (show b.onDiskLen ≤ a by omega) hlt
    rcases h.holds_iff.mp hx with ⟨hin, hget⟩ | hx
    · have hbound := RunMap.lt_of_getElem? hin hget
      omega
    · exact ⟨x, hx⟩

end

end InHand

/-! ## Flushing -/

lemma joinRuns_spec (pageSize : ℕ) (hcontent : content.length < 2 ^ 64) {start : ℕ} (fuel : ℕ) :
    ∀ {b : BufferedWrites} {bytes : Bytes}, b.InHand start bytes content →
      ∃ bytes' b', joinRuns pageSize start fuel bytes b = (.ok bytes', b') ∧
        b'.InHand start bytes' content ∧ b'.disk = b.disk ∧ b'.faults = b.faults ∧
        b'.mode = b.mode ∧ b'.runs.entries.length ≤ b.runs.entries.length := by
  induction fuel with
  | zero => exact fun {b bytes} h => ⟨bytes, b, rfl, h, rfl, rfl, rfl, le_rfl⟩
  | succ fuel ih =>
    intro b bytes h
    unfold joinRuns
    cases hpop : b.runs.popFirst with
    | none => exact ⟨bytes, b, rfl, h, rfl, rfl, rfl, le_rfl⟩
    | some e =>
      obtain ⟨⟨next, tail⟩, rest⟩ := e
      simp only
      by_cases hend : b.onDiskLen < next ∨ samePage (start + bytes.length - 1) next pageSize = false
      · rw [if_pos hend]
        exact ⟨bytes, b, rfl, h, rfl, rfl, rfl, le_rfl⟩
      obtain ⟨-, -, hlen⟩ := OrdMap.popFirst_eq_some hpop
      have hnext := (OrdMap.get?_of_popFirst hpop).mpr (.inl ⟨rfl, rfl⟩)
      have hfirst : ∀ k v, b.runs.get? k = some v → next ≤ k := fun k v hk =>
        ((OrdMap.get?_of_popFirst hpop).mp hk).elim (fun h => h.1.ge) fun h => h.1.le
      rw [if_neg hend, h.readGap_eq hcontent hnext hfirst (by omega)]
      obtain ⟨bytes', b', hjoin, hhand, hdisk, hfaults, hmode, hle⟩ := ih (h.join hpop)
      exact ⟨bytes', b', hjoin, hhand, hdisk, hfaults, hmode, by
        rw [hlen]
        exact hle.trans (Nat.le_succ _)⟩

/-- The result of a flush: the content is kept and stays where it was written, and only a fault leaves
something pending. -/
structure Flushed (b b' : BufferedWrites) (r : Except Error Unit) (content : Bytes) : Prop where
  coherent : b'.Coherent content
  mode : b'.mode = b.mode
  faults : b'.faults <:+ b.faults
  written : ∀ {a}, b.Written content a → b'.Written content a
  result : (r = .ok () ∧ b'.runs = .empty) ∨ (r = .error .io ∧ b.faults ≠ [])

lemma Flushed.refl (h : b.Coherent content) (hempty : b.runs = .empty) :
    Flushed b b (.ok ()) content :=
  ⟨h, rfl, suffix_refl _, fun h => h, .inl ⟨rfl, hempty⟩⟩

lemma issueRun_spec {start : ℕ} {bytes : Bytes} (h : b.InHand start bytes content) :
    ∃ r b', b.issueRun start bytes = (r, b') ∧ b'.Coherent content ∧ b'.mode = b.mode ∧
      b'.faults <:+ b.faults ∧ (∀ {a}, b.Written content a → b'.Written content a) ∧
      ((r = .ok () ∧ b'.runs = b.runs) ∨ (r = .error .io ∧ b.faults ≠ [])) := by
  have hwhole : ∀ {a}, b.Written content a →
      (fileWrite b.disk start bytes)[a]?.getD 0 = content[a]?.getD 0 := by
    intro a ha
    have hwritten := h.written ha bytes.length
    rwa [take_length] at hwritten
  unfold issueRun issue
  cases hfaults : b.faults with
  | nil => exact ⟨_, _, rfl, h.issued _, rfl, suffix_refl _, hwhole, .inl ⟨rfl, rfl⟩⟩
  | cons fault faults =>
    cases fault with
    | none => exact ⟨_, _, rfl, h.issued _, rfl, suffix_cons _ _, hwhole, .inl ⟨rfl, rfl⟩⟩
    | some n =>
      exact ⟨_, _, rfl, h.restore_issued n faults, rfl, suffix_cons _ _,
        fun ha => h.written ha n, .inr ⟨rfl, cons_ne_nil _ _⟩⟩

lemma flushLoop_spec (pageSize : ℕ) (hcontent : content.length < 2 ^ 64) (fuel : ℕ)
    {b : BufferedWrites} (h : b.Coherent content) (hfuel : b.runs.entries.length ≤ fuel) :
    Flushed b (flushLoop pageSize fuel b).2 (flushLoop pageSize fuel b).1 content := by
  induction fuel generalizing b with
  | zero =>
    apply Flushed.refl h
    apply OrdMap.ext
    exact length_eq_zero_iff.mp (Nat.le_zero.mp hfuel)
  | succ fuel ih =>
    unfold flushLoop
    cases hpop : b.runs.popFirst with
    | none => exact Flushed.refl h (OrdMap.popFirst_eq_none.mp hpop)
    | some e =>
      obtain ⟨⟨start, bytes⟩, rest⟩ := e
      obtain ⟨-, hfirst, hlen⟩ := OrdMap.popFirst_eq_some hpop
      have hinHand : InHand { b with runs := rest, pendingBytes := b.pendingBytes - bytes.length }
          start bytes content :=
        ⟨(restore_popFirst h.pending hpop).symm ▸ h, fun {k v} => hfirst k v⟩
      obtain ⟨joined, b₁, hjoin, hhand, hdisk, hfaults, hmode, hle⟩ :=
        joinRuns_spec pageSize hcontent rest.entries.length hinHand
      obtain ⟨r, b₂, hissue, hcoh, hmode₂, hfaults₂, hwritten, hres⟩ := issueRun_spec hhand
      have hkept : ∀ {a}, b.Written content a → b₂.Written content a := by
        intro a ha
        apply hwritten
        unfold Written
        rw [hdisk]
        exact ha
      rw [hfaults] at hfaults₂ hres
      simp only [hjoin, Fallible.andThen, hissue]
      rcases hres with ⟨rfl, hruns⟩ | ⟨rfl, hne⟩
      · have hrest := ih hcoh (by
          rw [hruns]
          have hle' : b₁.runs.entries.length ≤ rest.entries.length := hle
          omega)
        refine ⟨hrest.coherent, hrest.mode.trans (hmode₂.trans hmode),
          hrest.faults.trans hfaults₂, fun ha => hrest.written (hkept ha), ?_⟩
        apply hrest.result.imp_right
        intro hfail
        refine ⟨hfail.1, fun hnil => hfail.2 ?_⟩
        rw [hnil] at hfaults₂
        exact suffix_nil.mp hfaults₂
      · exact ⟨hcoh, hmode₂.trans hmode, hfaults₂, hkept, .inr ⟨rfl, hne⟩⟩

/-- **A flush keeps the content.** Without a fault nothing stays pending. -/
theorem flush_spec (h : b.Coherent content) (hcontent : content.length < 2 ^ 64) :
    Flushed b b.flush.2 b.flush.1 content :=
  flushLoop_spec _ hcontent _ h le_rfl

end BufferedWrites

end Hdf5Pure.Image
