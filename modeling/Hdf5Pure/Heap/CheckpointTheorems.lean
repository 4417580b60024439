import Hdf5Pure.Heap.PublicationTheorems

/-!
# Checkpoints of the undo journal

Journaled writes may overlap, and may fail part-way. The entries since a checkpoint still restore
its bytes, also after entries since a later checkpoint were undone and released.
-/

namespace Hdf5Pure.Heap

open WriteEngine List

section Checkpoints

variable {ι : Type} (img : FileImage ι)

def RestoresSince (checkpoint : ℕ) (e : WriteEngine ι) : Prop :=
  (undoEntries img (e.inplaceUndo.drop checkpoint).reverse e).1 = none

/-- What may follow a checkpoint after `k` entries: a journaled write, or an undo to it or a later
one. -/
inductive JournalStep (k : ℕ) (e : WriteEngine ι) : WriteEngine ι → Prop
  | write (offset : ℕ) (raw : Bytes) : JournalStep k e (writeInplaceJournaled img offset raw e).2
  | undo {checkpoint : ℕ} (hk : k ≤ checkpoint) (h : RestoresSince img checkpoint e) :
      JournalStep k e (undoInplaceSince img checkpoint e).2

lemma JournalStep.mono {img : FileImage ι} {k k' : ℕ} {e e' : WriteEngine ι}
    (h : JournalStep img k' e e') (hle : k ≤ k') : JournalStep img k e e' := by
  cases h with
  | write offset raw => exact .write offset raw
  | undo hk h => exact .undo (hle.trans hk) h

/-- The image as one without pending writes. The journal neither drops nor observes them. -/
def FileImage.bytes : FileImage ι :=
  { img with Issued := fun _ _ => True, discardPendingWrites := id }

variable {img}

lemma FileImage.Keeps.bytes {i i' : ι} (h : img.Keeps i i') : img.bytes.Keeps i i' :=
  ⟨h.sound, h.content, fun _ _ => trivial⟩

lemma FileImage.Lawful.bytes (h : img.Lawful) : img.bytes.Lawful where
  read_keeps hs offset n := (h.read_keeps hs offset n).bytes
  read_ok := h.read_ok
  write_overwrites hs _ _ hfits :=
    have hw := h.write_overwrites hs hfits
    ⟨hw.sound, hw.length, hw.content, fun _ _ _ => trivial⟩
  write_ok := h.write_ok
  flush_keeps hs := (h.flush_keeps hs).bytes
  flush_ok _ _ _ := trivial
  syncAll_keeps hs := (h.syncAll_keeps hs).bytes
  syncData_keeps hs := (h.syncData_keeps hs).bytes
  orderingBarrier_keeps hs := (h.orderingBarrier_keeps hs).bytes
  discard_length _ := rfl
  discard_issued _ := ⟨trivial, rfl⟩

/-! ## Steps -/

variable {e₀ e : WriteEngine ι} (hlawful : img.Lawful)

include hlawful

/-- An undo to a later checkpoint leaves what the entries before it restore. -/
lemma RecordedBy.undo {entries : List (ℕ × Bytes)}
    (h : RecordedBy img.bytes e₀ (fun _ => True) entries e) {checkpoint : ℕ}
    (hle : e₀.inplaceUndo.length ≤ checkpoint) (hrestores : RestoresSince img checkpoint e) :
    RecordedBy img.bytes e₀ (fun _ => True) (entries.take (checkpoint - e₀.inplaceUndo.length))
      (undoInplaceSince img checkpoint e).2 := by
  have hjournal : e.inplaceUndo = e₀.inplaceUndo ++ entries := by rw [h.frame]
  set m := checkpoint - e₀.inplaceUndo.length with hm
  by_cases hlong : entries.length < m
  · -- there is no such checkpoint
    have hstate : (undoInplaceSince img checkpoint e).2 = e := by
      unfold undoInplaceSince
      rw [if_pos (by rw [hjournal, length_append]; omega)]
    rw [hstate, take_of_length_le hlong.le]
    exact h
  have hsplit : e.inplaceUndo = (e₀.inplaceUndo ++ entries.take m) ++ entries.drop m := by
    rw [hjournal, append_assoc, take_append_drop]
  have hlen : (e₀.inplaceUndo ++ entries.take m).length = checkpoint := by
    rw [length_append, length_take]
    omega
  have hfits : ∀ entry ∈ (entries.drop m).reverse, entry.1 + entry.2.length ≤
      (img.content e.image).length := by
    intro entry hentry
    exact (h.fits entry (mem_of_mem_drop (mem_reverse.mp hentry))).trans_eq h.length.symm
  obtain ⟨hundo, hall⟩ := undoEntries_spec hlawful (entries.drop m).reverse
    h.sound hfits fun _ _ _ _ _ => trivial
  obtain ⟨i, hstate, hkeeps, -⟩ := undoInplaceSince_state hlawful hsplit hundo
  unfold RestoresSince at hrestores
  rw [← hlen, hsplit, drop_left] at hrestores
  rw [hlen] at hstate
  have hcontent : img.content i = Heap.undone (entries.drop m) (img.content e.image) := by
    rw [hkeeps.content, hall hrestores, foldl_reverse]
    rfl
  rw [hstate]
  refine ⟨?_, hkeeps.sound, ?_, ?_, ?_, fun _ _ _ _ _ => trivial, fun _ _ _ => trivial⟩
  · rw [h.frame]
  · exact (congrArg List.length hkeeps.content).trans (hundo.length.trans h.length)
  · show Heap.undone (entries.take m) (img.content i) = _
    rw [hcontent, Heap.undone, Heap.undone, ← foldr_append, take_append_drop]
    exact h.undone
  · exact fun entry hentry => h.fits entry (mem_of_mem_take hentry)

lemma recorded_of_run (hs : img.Sound e₀.image)
    (hrun : Relation.ReflTransGen (JournalStep img e₀.inplaceUndo.length) e₀ e) :
    Recorded img.bytes e₀ (fun _ => True) e := by
  induction hrun with
  | refl =>
    have hself : RecordedAs img.bytes e₀ (fun _ => True) (img.content e₀.image) e₀ :=
      recordedAs_self hs
    exact hself.1
  | @tail e e' _ hstep ih =>
    obtain ⟨entries, h⟩ := ih
    cases hstep with
    | write offset raw =>
      have hholds : (writeInplaceJournaled img.bytes offset raw).Holds
          (RecordedAs img.bytes e₀ (fun _ => True) (img.content e.image)) _ _ :=
        writeInplaceJournaled_holds hlawful.bytes False.elim fun _ _ _ => trivial
      obtain ⟨hok, herr⟩ := hholds e ⟨⟨entries, h⟩, rfl⟩
      rcases hwrite : writeInplaceJournaled img.bytes offset raw e with ⟨error | _, e'⟩
      · exact (congrArg Prod.snd hwrite).symm ▸ (herr error e' hwrite).1
      · exact (congrArg Prod.snd hwrite).symm ▸ (hok () e' hwrite).1
    | undo hk hrestores => exact ⟨_, h.undo hlawful hk hrestores⟩

lemma restored_of_run (hs : img.Sound e₀.image)
    (hrun : Relation.ReflTransGen (JournalStep img e₀.inplaceUndo.length) e₀ e)
    (hrestores : RestoresSince img e₀.inplaceUndo.length e) :
    img.content (undoInplaceSince img e₀.inplaceUndo.length e).2.image = img.content e₀.image ∧
      (undoInplaceSince img e₀.inplaceUndo.length e).2.inplaceUndo = e₀.inplaceUndo := by
  obtain ⟨entries, h⟩ := recorded_of_run hlawful hs hrun
  have hundo := h.undo hlawful le_rfl hrestores
  rw [Nat.sub_self, take_zero] at hundo
  refine ⟨hundo.undone, ?_⟩
  rw [hundo.frame]
  exact append_nil _

/-- **The journal restores every checkpoint.** After any journaled writes, failed ones among them, and
undos to later checkpoints, undoing to a checkpoint restores its bytes and its journal. A checkpoint
before it can be restored from there on as well. -/
theorem undo_restores_checkpoints (hs : img.Sound e₀.image)
    (hrun : Relation.ReflTransGen (JournalStep img e₀.inplaceUndo.length) e₀ e)
    (hrestores : RestoresSince img e₀.inplaceUndo.length e) :
    img.content (undoInplaceSince img e₀.inplaceUndo.length e).2.image = img.content e₀.image ∧
      (undoInplaceSince img e₀.inplaceUndo.length e).2.inplaceUndo = e₀.inplaceUndo ∧
      ∀ d, img.Sound d.image →
        Relation.ReflTransGen (JournalStep img d.inplaceUndo.length) d e₀ → ∀ e',
        Relation.ReflTransGen (JournalStep img d.inplaceUndo.length)
          (undoInplaceSince img e₀.inplaceUndo.length e).2 e' →
        RestoresSince img d.inplaceUndo.length e' →
        img.content (undoInplaceSince img d.inplaceUndo.length e').2.image = img.content d.image ∧
          (undoInplaceSince img d.inplaceUndo.length e').2.inplaceUndo = d.inplaceUndo := by
  obtain ⟨hcontent, hjournal⟩ := restored_of_run hlawful hs hrun hrestores
  refine ⟨hcontent, hjournal, fun d hd hbefore e' hafter hrestores' => ?_⟩
  obtain ⟨entries, hrec⟩ := recorded_of_run hlawful hd hbefore
  have hle : d.inplaceUndo.length ≤ e₀.inplaceUndo.length := by
    rw [hrec.frame, length_append]
    exact Nat.le_add_right _ _
  -- what follows the later checkpoint also follows the earlier one
  have hrun' : Relation.ReflTransGen (JournalStep img d.inplaceUndo.length) e₀ e :=
    Relation.ReflTransGen.mono (fun _ _ h => h.mono hle) _ _ hrun
  exact restored_of_run hlawful hd
    (((hbefore.trans hrun').tail (.undo hle hrestores)).trans hafter) hrestores'

end Checkpoints

def fourByteEngine : WriteEngine ScriptedImage where
  image := ⟨[1, 2, 3, 4], [1, 2, 3, 4], [false, false, false, true], rfl⟩
  inplaceUndo := []
  allocations := .confirmed
  publicationAttempted := false
  syncPolicy := .always

theorem undo_restores_checkpoints_overlapping :
    (undoInplaceSince ScriptedImage.fileImage 0
      (writeInplaceJournaled ScriptedImage.fileImage 2 [7, 7]
        (writeInplaceJournaled ScriptedImage.fileImage 1 [9, 9] fourByteEngine).2).2).2.image.shown =
      [1, 2, 3, 4] :=
  (undo_restores_checkpoints ScriptedImage.fileImage_lawful
    (show ScriptedImage.fileImage.Sound fourByteEngine.image from trivial)
    (.tail (.single (.write 1 [9, 9])) (.write 2 [7, 7])) rfl).1

end Hdf5Pure.Heap
