import Hdf5Pure.Heap.Journal
import Hdf5Pure.Image.ImageTheorems

/-!
# The images under the journal

`HandleImage` and `MirrorImage` as images for the journal. Both obey its laws whatever writes fail,
and are reliable where none does. A panic stands as an internal error. There is none in the states
calls are made in.
-/

namespace Hdf5Pure.Image

open List

open Edit (Error)
open Heap (FileImage)

def unwound {α σ : Type} (s : σ) : Checked (Except Error α × σ) → Except Error α × σ
  | .ok r => r
  | .error panic => (.error (.format (.internal panic.message)), s)

/-- The byte of a resized file, with a zero where the file had none. -/
lemma getElem?_fileSetLen (disk : Bytes) (len p : ℕ) :
    (fileSetLen disk len)[p]? = if p < len then some (disk[p]?.getD 0) else none := by
  by_cases hp : p < len
  · rw [if_pos hp, fileSetLen]
    by_cases hlow : p < disk.length
    · rw [getElem?_append_left (by rw [length_take]; omega),
        getElem?_take_of_lt hp, getElem?_eq_getElem hlow]
      rfl
    · rw [getElem?_append_right (by rw [length_take]; omega), length_take,
        getElem?_replicate, if_pos (by omega), getElem?_eq_none (by omega)]
      rfl
  · rw [if_neg hp, getElem?_eq_none (by rw [BufferedWrites.length_fileSetLen]; omega)]

def IsFlush (f : BufferedWrites → Except Error Unit × BufferedWrites) : Prop :=
  ∀ b, f b = b.flush ∨ f b = (.ok (), b)

lemma isFlush_flush : IsFlush BufferedWrites.flush := fun _ => .inl rfl

lemma isFlush_orderingBarrier : IsFlush BufferedWrites.orderingBarrier := by
  intro b
  unfold BufferedWrites.orderingBarrier
  cases b.mode with
  | unbuffered => exact .inr rfl
  | operation pageSize maxBytes => exact .inl rfl
  | session pageSize maxBytes => exact .inr rfl

variable {mayFail : Bool} {offset n : ℕ} {bytes : Bytes}
  {f : BufferedWrites → Except Error Unit × BufferedWrites}

/-! ## The image without a mirror -/

namespace HandleImage

variable {image : HandleImage} {content : Bytes}

def shown (image : HandleImage) : Bytes :=
  image.writes.overlay 0 (fileSetLen image.writes.disk image.len)

def onWrites (call : BufferedWrites → Except Error Unit × BufferedWrites) :
    Fallible Error HandleImage Unit := fun image =>
  let (r, writes) := call image.writes
  (r, { image with writes := writes })

/-- A state calls are made in. Without `mayFail` no write to the file fails. -/
structure Steady (mayFail : Bool) (image : HandleImage) : Prop where
  coherent : image.writes.Coherent image.shown
  unbuffered : image.writes.mode = .unbuffered → image.writes.runs = .empty
  bound : image.len < 2 ^ 64
  faultless : mayFail = false → image.writes.faults = []

def fileImage (mayFail : Bool) : FileImage HandleImage where
  readAt offset n image := unwound image do
    let r ← image.readAt offset n
    .ok (r.mapError .format, image)
  writeAt offset bytes image := image.writeAt offset bytes
  flush := onWrites BufferedWrites.flush
  syncAll := onWrites BufferedWrites.syncAll
  syncData := onWrites BufferedWrites.syncData
  orderingBarrier := onWrites BufferedWrites.orderingBarrier
  discardPendingWrites image := { image with writes := image.writes.discardPendingWrites }
  content := shown
  Issued image p := (fileSetLen image.writes.disk image.len)[p]? = image.shown[p]?
  Sound := Steady mayFail

lemma length_shown (image : HandleImage) : image.shown.length = image.len := by
  rw [shown, BufferedWrites.length_overlay, BufferedWrites.length_fileSetLen]

/-- A byte is issued where the file has it. -/
lemma issued_iff {p : ℕ} : (fileImage mayFail).Issued image p ↔
    (p < image.len → image.writes.Written image.shown p) := by
  show (fileSetLen image.writes.disk image.len)[p]? = image.shown[p]? ↔ _
  rw [getElem?_fileSetLen, BufferedWrites.Written]
  by_cases hp : p < image.len
  · have hshown : p < image.shown.length := by
      rw [length_shown]
      exact hp
    rw [if_pos hp, getElem?_eq_getElem hshown]
    simp [hp]
  · rw [if_neg hp, getElem?_eq_none (by rw [length_shown]; omega)]
    simp [hp]

lemma shown_eq (h : image.writes.Coherent content) (hlen : content.length = image.len) :
    image.shown = content := by
  have hsize := BufferedWrites.length_fileSetLen image.writes.disk image.len
  have honDisk := h.onDisk_le
  rw [shown, h.overlay_eq (by omega), hsize, ← hlen]
  · exact take_length
  intro i hi hlow
  rw [getElem?_fileSetLen, if_pos (by omega), Nat.zero_add,
    getElem?_eq_getElem (by omega)]
  rfl

/-- The state after a call whose writes show a content of the same length. -/
lemma Steady.next (hs : image.Steady mayFail) (image' : HandleImage)
    (hcoh : image'.writes.Coherent content) (hcontent : content.length = image.len)
    (hlen : image'.len = image.len)
    (hunbuffered : image'.writes.mode = .unbuffered → image'.writes.runs = .empty)
    (hfaults : image'.writes.faults <:+ image.writes.faults) :
    image'.shown = content ∧ image'.Steady mayFail := by
  have hshown := shown_eq hcoh (hcontent.trans hlen.symm)
  refine ⟨hshown, hshown.symm ▸ hcoh, hunbuffered, hlen.symm ▸ hs.bound, fun hfail => ?_⟩
  rw [hs.faultless hfail] at hfaults
  exact suffix_nil.mp hfaults

lemma Steady.keeps_refl (hs : image.Steady mayFail) : (fileImage mayFail).Keeps image image :=
  ⟨hs, rfl, fun _ hi => hi⟩

lemma Steady.flushed (hs : image.Steady mayFail) :
    BufferedWrites.Flushed image.writes image.writes.flush.2 image.writes.flush.1 image.shown := by
  apply BufferedWrites.flush_spec hs.coherent
  rw [length_shown]
  exact hs.bound

lemma Steady.drain_keeps (hs : image.Steady mayFail) (hf : IsFlush f) :
    (fileImage mayFail).Keeps image (onWrites f image).2 := by
  unfold onWrites
  rcases hf image.writes with heq | heq
  · rw [heq]
    have hflush := hs.flushed
    obtain ⟨hshown, hsteady⟩ := hs.next { image with writes := image.writes.flush.2 }
      hflush.coherent (length_shown image) rfl (fun hmode => by
        -- without a buffer there is nothing to flush
        have hempty := hs.unbuffered (hflush.mode.symm.trans hmode)
        show image.writes.flush.2.runs = .empty
        rw [BufferedWrites.flush_empty hempty]
        exact hempty) hflush.faults
    refine ⟨hsteady, hshown, fun p hi => issued_iff.mpr fun hp => ?_⟩
    rw [hshown]
    exact hflush.written (issued_iff.mp hi hp)
  · rw [heq]
    exact hs.keeps_refl

lemma Steady.drain_ok (hs : image.Steady false) (hf : IsFlush f) :
    (onWrites f image).1 = .ok () := by
  unfold onWrites
  rcases hf image.writes with heq | heq
  · rw [heq]
    rcases hs.flushed.result with ⟨hok, -⟩ | ⟨-, hne⟩
    · exact hok
    · exact absurd (hs.faultless rfl) hne
  · rw [heq]

lemma Steady.readAt_eq (hs : image.Steady mayFail) (offset n : ℕ) :
    (fileImage mayFail).readAt offset n image =
      ((MirrorImage.bytesIn image.shown offset n).mapError Error.format, image) := by
  have hlen := length_shown image
  have hbound := hs.bound
  show unwound image _ = _
  rw [HandleImage.readAt_eq hs.coherent hlen.symm (by omega)]
  rfl

/-- What a write within the image leaves, also if it fails. -/
lemma Steady.writeAt_spec (hs : image.Steady mayFail)
    (h : offset + bytes.length ≤ image.shown.length) :
    ∃ content, BufferedWrites.Wrote image.writes offset bytes image.shown content
        (image.writeAt offset bytes).1 (image.writeAt offset bytes).2.writes ∧
      (image.writeAt offset bytes).2.shown = content ∧
      (image.writeAt offset bytes).2.Steady mayFail ∧
      (image.writeAt offset bytes).2.len = image.len := by
  have hlen := length_shown image
  have hbound := hs.bound
  have hpatch := length_patch (show offset ≤ image.shown.length by omega) bytes
  obtain ⟨content, hwrote⟩ := hs.coherent.writeAt_spec hs.unbuffered (by omega) bytes (.inr h)
    (by omega)
  obtain ⟨k, hcontent⟩ := hwrote.patched
  have hsize : content.length = image.len := by
    rw [hcontent, length_patch (by omega), length_take]
    omega
  unfold writeAt
  simp only [checkedAdd_of_lt (show offset + bytes.length < 2 ^ 64 by omega)]
  rw [if_neg (by omega)]
  obtain ⟨hshown, hsteady⟩ := hs.next { image.invalidate offset bytes.length with
    writes := (image.writes.writeAt offset bytes).2 } hwrote.coherent hsize rfl hwrote.unbuffered
    hwrote.faults
  exact ⟨content, hwrote, hshown, hsteady, rfl⟩

/-- **The image without a mirror obeys the laws of the journal.** -/
theorem fileImage_lawful (mayFail : Bool) : (fileImage mayFail).Lawful where
  read_keeps {image} hs offset n := by
    rw [Steady.readAt_eq hs]
    exact Steady.keeps_refl hs
  read_ok {image} hs {offset n bytes} h := by
    rw [Steady.readAt_eq hs] at h
    cases hread : MirrorImage.bytesIn image.shown offset n with
    | error e =>
      rw [hread] at h
      cases h
    | ok out =>
      rw [hread] at h
      cases h
      obtain ⟨-, hle, rfl⟩ := bytesIn_eq_ok.mp hread
      exact ⟨hle, rfl⟩
  write_overwrites {image} hs {offset bytes} h := by
    obtain ⟨content, hwrote, hshown, hsteady, hlen⟩ := Steady.writeAt_spec hs h
    obtain ⟨k, hcontent⟩ := hwrote.patched
    have hoff : offset ≤ image.shown.length := Nat.le_of_add_right_le h
    refine ⟨hsteady, ?_, fun p hp => ?_, fun p hp hi => issued_iff.mpr fun hlt => ?_⟩
    · show (image.writeAt offset bytes).2.shown.length = image.shown.length
      rw [length_shown, length_shown, hlen]
    · show (image.writeAt offset bytes).2.shown[p]? = image.shown[p]?
      rw [hshown, hcontent, getElem?_patch hoff, if_neg]
      rw [length_take]
      omega
    · show (image.writeAt offset bytes).2.writes.Written (image.writeAt offset bytes).2.shown p
      rw [hshown]
      exact hwrote.written hp (issued_iff.mp hi (hlen ▸ hlt))
  write_ok {image} hs {offset bytes} h hok := by
    obtain ⟨content, hwrote, hshown, -⟩ := Steady.writeAt_spec hs h
    rcases hwrote.result with ⟨-, hcontent⟩ | ⟨hfail, -⟩
    · exact hshown.trans hcontent
    · have hok : (image.writeAt offset bytes).1 = .ok () := hok
      rw [hfail] at hok
      cases hok
  flush_keeps hs := Steady.drain_keeps (f := BufferedWrites.flush) hs isFlush_flush
  flush_ok {image} hs h p := by
    have hflush := Steady.flushed hs
    rcases hflush.result with ⟨-, hempty⟩ | ⟨hfail, -⟩
    · have hkeeps := Steady.drain_keeps hs isFlush_flush
      exact issued_iff.mpr fun _ => BufferedWrites.Coherent.written hkeeps.sound.coherent hempty p
    · have h : image.writes.flush.1 = .ok () := h
      rw [hfail] at h
      cases h
  syncAll_keeps hs := Steady.drain_keeps (f := BufferedWrites.flush) hs isFlush_flush
  syncData_keeps hs := Steady.drain_keeps (f := BufferedWrites.flush) hs isFlush_flush
  orderingBarrier_keeps hs := Steady.drain_keeps hs isFlush_orderingBarrier
  discard_length image :=
    (length_shown ((fileImage mayFail).discardPendingWrites image)).trans (length_shown image).symm
  discard_issued {image p} h := ⟨rfl, h⟩

/-- Without failing writes the image is reliable. -/
lemma fileImage_reliable : (fileImage false).Reliable where
  read_ok {image} hs {offset n} h := by
    have hlen := length_shown image
    have hbound := Steady.bound hs
    have h : offset + n ≤ image.shown.length := h
    rw [Steady.readAt_eq hs, bytesIn_eq_ok.mpr ⟨by omega, h, rfl⟩]
    exact ⟨_, rfl⟩
  write_ok {image} hs {offset bytes} h := by
    obtain ⟨content, hwrote, -⟩ := Steady.writeAt_spec hs h
    rcases hwrote.result with ⟨hok, -⟩ | ⟨-, hne⟩
    · exact hok
    · exact absurd (Steady.faultless hs rfl) hne
  flush_ok hs := Steady.drain_ok (f := BufferedWrites.flush) hs isFlush_flush
  syncAll_ok hs := Steady.drain_ok (f := BufferedWrites.flush) hs isFlush_flush
  orderingBarrier_ok hs := Steady.drain_ok hs isFlush_orderingBarrier

end HandleImage

/-! ## The image with a mirror -/

namespace MirrorImage

variable {image : MirrorImage}

def onWrites (call : BufferedWrites → Except Error Unit × BufferedWrites) :
    Fallible Error MirrorImage Unit := fun image =>
  let (r, writes) := call image.writes
  (r, { image with writes := writes })

/-- The mirror is what reads return, also after pending writes are discarded. -/
def fileImage (mayFail : Bool) : FileImage MirrorImage where
  readAt offset n image := ((image.readAt offset n).mapError .format, image)
  writeAt offset bytes image := unwound image (image.writeAt offset bytes)
  flush := onWrites BufferedWrites.flush
  syncAll := onWrites BufferedWrites.syncAll
  syncData := onWrites BufferedWrites.syncData
  orderingBarrier := onWrites BufferedWrites.orderingBarrier
  discardPendingWrites image := { image with writes := image.writes.discardPendingWrites }
  content := data
  Issued _ _ := True
  Sound image := mayFail = false → image.Shows image.data

/-- Without failing writes a drain succeeds. -/
lemma Shows.drain (hf : IsFlush f) (h : image.Shows image.data) :
    (onWrites f image).1 = .ok () ∧ (onWrites f image).2.Shows image.data := by
  unfold onWrites
  rcases hf image.writes with heq | heq
  · obtain ⟨b, hflush, hsettled, -⟩ := h.settled.flush_eq h.bound
    rw [heq, hflush]
    exact ⟨rfl, hsettled, rfl, h.bound⟩
  · rw [heq]
    exact ⟨rfl, h⟩

lemma keeps_drain (hs : (fileImage mayFail).Sound image) (hf : IsFlush f) :
    (fileImage mayFail).Keeps image (onWrites f image).2 :=
  ⟨fun hfail => (Shows.drain hf (hs hfail)).2, rfl, fun _ _ => trivial⟩

/-- A write within the mirror changes it if it succeeds. -/
lemma writeAt_cases (h : offset + bytes.length ≤ image.data.length) :
    ∃ r image', image.writeAt offset bytes = .ok (r, image') ∧
      ((r = .ok () ∧ image'.data = patch image.data offset bytes) ∨
        (r ≠ .ok () ∧ image'.data = image.data)) := by
  have hassert : saturatingAdd offset bytes.length ≤ image.data.length :=
    (min_le_left _ _).trans h
  unfold writeAt
  dsimp only
  rw [Checked.assert_of (decide_eq_true hassert), Checked.ok_bind]
  rcases image.writes.writeAt offset bytes with ⟨e | _, writes⟩
  · exact ⟨_, _, rfl, .inr ⟨nofun, rfl⟩⟩
  · simp only [copyInto_eq h, Checked.ok_bind]
    exact ⟨_, _, rfl, .inl ⟨rfl, rfl⟩⟩

/-- **The image with a mirror obeys the laws of the journal.** -/
theorem fileImage_lawful (mayFail : Bool) : (fileImage mayFail).Lawful where
  read_keeps hs offset n := ⟨hs, rfl, fun _ _ => trivial⟩
  read_ok {image} hs {offset n bytes} h := by
    have h : (bytesIn image.data offset n).mapError Error.format = .ok bytes := h
    cases hread : bytesIn image.data offset n with
    | error e =>
      rw [hread] at h
      cases h
    | ok out =>
      rw [hread] at h
      cases h
      obtain ⟨-, hle, rfl⟩ := HandleImage.bytesIn_eq_ok.mp hread
      exact ⟨hle, rfl⟩
  write_overwrites {image} hs {offset bytes} h := by
    have h : offset + bytes.length ≤ image.data.length := h
    obtain ⟨r, image', hwrite, hcases⟩ := writeAt_cases h
    have hsound : (fileImage mayFail).Sound image' := by
      intro hfail
      obtain ⟨image'', hwrite', hshows⟩ := (hs hfail).writeAt_eq h
      rw [hwrite] at hwrite'
      cases hwrite'
      rw [hshows.data]
      exact hshows
    show (fileImage mayFail).Overwrites offset bytes.length image (unwound image _).2
    rw [hwrite]
    rcases hcases with ⟨-, hdata⟩ | ⟨-, hdata⟩
    · refine ⟨hsound, ?_, fun p hp => ?_, fun _ _ _ => trivial⟩
      · show image'.data.length = image.data.length
        rw [hdata, length_patch (by omega)]
        omega
      · show image'.data[p]? = image.data[p]?
        rw [hdata, getElem?_patch (by omega), if_neg (by omega)]
    · exact ⟨hsound, congrArg length hdata, fun p _ => congrArg (·[p]?) hdata, fun _ _ _ => trivial⟩
  write_ok {image} hs {offset bytes} h hok := by
    obtain ⟨r, image', hwrite, hcases⟩ := writeAt_cases h
    have hok : (unwound image (image.writeAt offset bytes)).1 = .ok () := hok
    show (unwound image (image.writeAt offset bytes)).2.data = _
    rw [hwrite] at hok ⊢
    rcases hcases with ⟨-, hdata⟩ | ⟨hne, -⟩
    · exact hdata
    · exact absurd hok hne
  flush_keeps hs := keeps_drain (f := BufferedWrites.flush) hs isFlush_flush
  flush_ok hs h p := trivial
  syncAll_keeps hs := keeps_drain (f := BufferedWrites.flush) hs isFlush_flush
  syncData_keeps hs := keeps_drain (f := BufferedWrites.flush) hs isFlush_flush
  orderingBarrier_keeps hs := keeps_drain hs isFlush_orderingBarrier
  discard_length image := rfl
  discard_issued _ := ⟨trivial, rfl⟩

/-- Without failing writes the image is reliable. -/
lemma fileImage_reliable : (fileImage false).Reliable where
  read_ok {image} hs {offset n} h := by
    have hbound := (hs rfl).bound
    have h : offset + n ≤ image.data.length := h
    show ∃ bytes, (bytesIn image.data offset n).mapError Error.format = .ok bytes
    rw [HandleImage.bytesIn_eq_ok.mpr ⟨by omega, h, rfl⟩]
    exact ⟨_, rfl⟩
  write_ok {image} hs {offset bytes} h := by
    obtain ⟨image', hwrite, -⟩ := (hs rfl).writeAt_eq h
    show (unwound image (image.writeAt offset bytes)).1 = .ok ()
    rw [hwrite]
    rfl
  flush_ok hs := (Shows.drain isFlush_flush (hs rfl)).1
  syncAll_ok hs := (Shows.drain isFlush_flush (hs rfl)).1
  orderingBarrier_ok hs := (Shows.drain isFlush_orderingBarrier (hs rfl)).1

end MirrorImage

end Hdf5Pure.Image
