import Hdf5Pure.Filter.Error

/-!
# Storage of a filter run

`crates/hdf5-pure-filter/src/pipeline/buffer.rs`. A stage reads the live range of its input and
writes into a recycled allocation, the spare, whose initialized bytes are left over from earlier
stages or chunks. Capacities, and the spare after an error, are not modelled.
-/

namespace Hdf5Pure.Filter

open List

/-- A borrowed input, or an owned allocation with a live byte range within it. -/
inductive FilterBuffer where
  | borrowed (bytes : Bytes)
  | owned (bytes : Bytes) (start stop : ℕ) (range : start ≤ stop ∧ stop ≤ bytes.length)

namespace FilterBuffer

def asSlice : FilterBuffer → Bytes
  | borrowed bytes => bytes
  | owned bytes start stop _ => (bytes.take stop).drop start

def ownedVec (bytes : Bytes) : FilterBuffer := owned bytes 0 bytes.length ⟨Nat.zero_le _, le_rfl⟩

/-- The spare after `buffer` is given up. -/
def recycle (buffer : FilterBuffer) (spare : Bytes) : Bytes :=
  match buffer with
  | borrowed _ => spare
  | owned bytes _ _ _ => bytes

def replace (buffer : FilterBuffer) (spare bytes : Bytes) : FilterBuffer × Bytes :=
  (ownedVec bytes, buffer.recycle spare)

/-- Writes the live input into an empty vector over the spare's capacity. -/
def materialize (buffer : FilterBuffer) (spare : Bytes) (write : Bytes → Except FilterError Bytes) :
    Except FilterError (FilterBuffer × Bytes) := do
  let output ← write buffer.asSlice
  .ok (ownedVec output, buffer.recycle spare)

end FilterBuffer

/-- A writable prefix of initialized storage. -/
structure OutputWindow where
  bytes : Bytes
  stop : ℕ
  stop_le : stop ≤ bytes.length

namespace OutputWindow

def new (spare : Bytes) : OutputWindow := ⟨spare, 0, Nat.zero_le _⟩

/-- Sets the writable length, zeroing only newly initialized bytes. -/
def resize (window : OutputWindow) (stop : ℕ) : OutputWindow :=
  ⟨window.bytes ++ replicate (stop - window.bytes.length) 0, stop, by
    rw [length_append, length_replicate]
    omega⟩

def slice (window : OutputWindow) : Bytes := window.bytes.take window.stop

/-- The window after its writable prefix has been overwritten by a list of the same length. -/
def write (window : OutputWindow) (slice : Bytes) (h : slice.length = window.stop) : OutputWindow :=
  ⟨slice ++ window.bytes.drop window.stop, window.stop, by
    rw [length_append, h]
    exact Nat.le_add_right _ _⟩

def finish (window : OutputWindow) (produced : ℕ) : Except FilterError FilterBuffer :=
  if h : produced ≤ window.stop then
    .ok (.owned window.bytes 0 produced ⟨Nat.zero_le _, h.trans window.stop_le⟩)
  else .error (.pipeline (.internal "filter output count exceeds its writable window"))

end OutputWindow

namespace FilterBuffer

/-- Writes into a bounded initialized window and recycles the displaced allocation. -/
def overwrite (buffer : FilterBuffer) (spare : Bytes)
    (write : Bytes → OutputWindow → Except FilterError (ℕ × OutputWindow)) :
    Except FilterError (FilterBuffer × Bytes) := do
  let (produced, window) ← write buffer.asSlice (.new spare)
  let output ← window.finish produced
  .ok (output, buffer.recycle spare)

/-- Restricts the view to a range relative to the live bytes. -/
def narrow (buffer : FilterBuffer) (start stop : ℕ) : Except FilterError FilterBuffer :=
  if h : start ≤ stop ∧ stop ≤ buffer.asSlice.length then
    .ok (match buffer, h with
      | borrowed bytes, _ => borrowed ((bytes.take stop).drop start)
      | owned bytes liveStart liveStop range, h =>
        owned bytes (liveStart + start) (liveStart + stop) (by
          simp only [asSlice, length_drop, length_take] at h
          omega))
  else .error (.pipeline (.internal "filter view extends beyond its input"))

end FilterBuffer

/-- An append writer. The last `tail` initialized bytes are not written yet. -/
structure AppendBuffer where
  bytes : Bytes
  tail : ℕ
  tail_le : tail ≤ bytes.length

namespace AppendBuffer

def new (bytes : Bytes) : AppendBuffer := ⟨bytes, bytes.length, le_rfl⟩

def fromLive (bytes : Bytes) (start stop : ℕ) : AppendBuffer :=
  ⟨(bytes.take stop).drop start ++ bytes.drop ((bytes.take stop).drop start).length,
    bytes.length - ((bytes.take stop).drop start).length, by
      simp only [length_append, length_drop, length_take]
      omega⟩

def extendFromSlice (buffer : AppendBuffer) (suffix : Bytes) : AppendBuffer :=
  let written := buffer.bytes.length - buffer.tail
  let retained := min buffer.tail suffix.length
  ⟨buffer.bytes.take written ++ suffix ++ buffer.bytes.drop (written + retained),
    buffer.tail - retained, by
      have := buffer.tail_le
      simp only [length_append, length_take, length_drop]
      omega⟩

def written (buffer : AppendBuffer) : Bytes :=
  buffer.bytes.take (buffer.bytes.length - buffer.tail)

def finish (buffer : AppendBuffer) : FilterBuffer :=
  .owned buffer.bytes 0 (buffer.bytes.length - buffer.tail) ⟨Nat.zero_le _, Nat.sub_le _ _⟩

end AppendBuffer

namespace FilterBuffer

/-- Appends to owned live bytes, copying borrowed input into the spare allocation first. -/
def append (buffer : FilterBuffer) (spare suffix : Bytes) : FilterBuffer × Bytes :=
  match buffer with
  | borrowed input =>
    ((((AppendBuffer.new spare).extendFromSlice input).extendFromSlice suffix).finish, [])
  | owned bytes start stop _ =>
    (((AppendBuffer.fromLive bytes start stop).extendFromSlice suffix).finish, spare)

def intoOwned : FilterBuffer → Bytes
  | borrowed bytes => bytes
  | owned bytes start stop _ => (AppendBuffer.fromLive bytes start stop).written

/-! ## What a view shows -/

@[simp] lemma asSlice_borrowed (bytes : Bytes) : (borrowed bytes).asSlice = bytes := rfl

@[simp] lemma asSlice_ownedVec (bytes : Bytes) : (ownedVec bytes).asSlice = bytes := by
  simp [ownedVec, asSlice]

lemma asSlice_narrow {buffer : FilterBuffer} {start stop : ℕ} (h : start ≤ stop)
    (hstop : stop ≤ buffer.asSlice.length) :
    ∃ view, buffer.narrow start stop = .ok view ∧
      view.asSlice = (buffer.asSlice.take stop).drop start := by
  unfold narrow
  rw [dif_pos ⟨h, hstop⟩]
  cases buffer with
  | borrowed bytes => exact ⟨_, rfl, rfl⟩
  | owned bytes liveStart liveStop range =>
    refine ⟨_, rfl, ?_⟩
    simp only [asSlice, length_drop, length_take] at hstop ⊢
    rw [take_drop, take_take, drop_drop, min_eq_left (by omega)]

lemma asSlice_finish {window : OutputWindow} {produced : ℕ} (h : produced ≤ window.stop) :
    ∃ view, window.finish produced = .ok view ∧ view.asSlice = window.slice.take produced := by
  unfold OutputWindow.finish
  rw [dif_pos h]
  refine ⟨_, rfl, ?_⟩
  rw [asSlice, drop_zero, OutputWindow.slice, take_take, min_eq_left h]

end FilterBuffer

namespace AppendBuffer

@[simp] lemma written_new (bytes : Bytes) : (new bytes).written = [] := by simp [new, written]

lemma written_fromLive {bytes : Bytes} {start stop : ℕ} (h : stop ≤ bytes.length) :
    (fromLive bytes start stop).written = (bytes.take stop).drop start := by
  unfold fromLive written
  rw [take_append_of_le_length]
  · apply take_of_length_le
    simp only [length_append, length_drop, length_take]
    omega
  · simp only [length_append, length_drop, length_take]
    omega

@[simp] lemma written_extendFromSlice (buffer : AppendBuffer) (suffix : Bytes) :
    (buffer.extendFromSlice suffix).written = buffer.written ++ suffix := by
  have hle := buffer.tail_le
  unfold extendFromSlice written
  rw [take_append_of_le_length]
  · apply take_of_length_le
    simp only [length_append, length_drop, length_take]
    omega
  · simp only [length_append, length_drop, length_take]
    omega

lemma asSlice_finish (buffer : AppendBuffer) : buffer.finish.asSlice = buffer.written := by
  rw [finish, FilterBuffer.asSlice, drop_zero, written]

end AppendBuffer

namespace FilterBuffer

lemma asSlice_append (buffer : FilterBuffer) (spare suffix : Bytes) :
    (buffer.append spare suffix).1.asSlice = buffer.asSlice ++ suffix := by
  cases buffer with
  | borrowed input => simp [append, AppendBuffer.asSlice_finish]
  | owned bytes start stop range =>
    rw [append, AppendBuffer.asSlice_finish, AppendBuffer.written_extendFromSlice,
      AppendBuffer.written_fromLive range.2, asSlice]

lemma intoOwned_eq (buffer : FilterBuffer) : buffer.intoOwned = buffer.asSlice := by
  cases buffer with
  | borrowed bytes => rfl
  | owned bytes start stop range => exact AppendBuffer.written_fromLive range.2

end FilterBuffer

end Hdf5Pure.Filter
