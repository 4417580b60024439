import Hdf5Pure.Heap.Journal

/-!
# Journaled writes

What the journal records since a checkpoint restores the bytes of the image, however far the writes
have come. A scope that cannot write them back changes no byte outside the range of its writes.
-/

namespace Hdf5Pure.Heap

open Edit (Error)
open WriteEngine List

/-! ## Restored bytes -/

/-- The bytes after prior ones are written back, the latest first. -/
def undone (entries : List (ℕ × Bytes)) (content : Bytes) : Bytes :=
  entries.foldr (fun entry c => patch c entry.1 entry.2) content

section Undone

variable {entries : List (ℕ × Bytes)} {content : Bytes}

/-- Entries within the bytes keep their number, and the bytes outside the entries. -/
lemma undone_spec (hfits : ∀ entry ∈ entries, entry.1 + entry.2.length ≤ content.length) :
    (undone entries content).length = content.length ∧
      ∀ p, (∀ entry ∈ entries, p < entry.1 ∨ entry.1 + entry.2.length ≤ p) →
        (undone entries content)[p]? = content[p]? := by
  induction entries with
  | nil => exact ⟨rfl, fun _ _ => rfl⟩
  | cons entry rest ih =>
    obtain ⟨hlen, hget⟩ := ih (fun entry h => hfits entry (by simp [h]))
    have hfit := hfits entry (by simp)
    have hstart : entry.1 ≤ (undone rest content).length := by omega
    have hcons : undone (entry :: rest) content = patch (undone rest content) entry.1 entry.2 := rfl
    rw [hcons]
    refine ⟨?_, fun p hp => ?_⟩
    · rw [length_patch hstart]
      omega
    · have hout := hp entry (by simp)
      rw [getElem?_patch hstart, if_neg (by omega)]
      exact hget p fun entry h => hp entry (by simp [h])

end Undone

/-! ## Recorded writes -/

section Recorded

variable {ι : Type} (img : FileImage ι) (e₀ : WriteEngine ι) (R : ℕ → Prop)

/-- The writes since `e₀` are at positions of `R`, and `entries` restore them. -/
structure RecordedBy (entries : List (ℕ × Bytes)) (e : WriteEngine ι) : Prop where
  frame : e = { e₀ with image := e.image, inplaceUndo := e₀.inplaceUndo ++ entries }
  sound : img.Sound e.image
  length : (img.content e.image).length = (img.content e₀.image).length
  undone : undone entries (img.content e.image) = img.content e₀.image
  fits : ∀ entry ∈ entries, entry.1 + entry.2.length ≤ (img.content e₀.image).length
  within : ∀ entry ∈ entries, ∀ p, entry.1 ≤ p → p < entry.1 + entry.2.length → R p
  issued : ∀ p, entries = [] ∨ ¬ R p → img.Issued e₀.image p → img.Issued e.image p

/-- The journal restores the writes since `e₀`. -/
def Recorded (e : WriteEngine ι) : Prop := ∃ entries, RecordedBy img e₀ R entries e

/-- The journal restores the writes since `e₀`, which have led to the bytes `c`. -/
def RecordedAs (c : Bytes) (e : WriteEngine ι) : Prop :=
  Recorded img e₀ R e ∧ img.content e.image = c

/-- A call has failed with its writes in the journal. If the image is reliable, what `G` grants was
not granted. -/
def Refused (G : Prop) (e : WriteEngine ι) : Prop := Recorded img e₀ R e ∧ (img.Reliable → ¬ G)

variable {img e₀ R} {G : Prop}

lemma recordedAs_self (hs : img.Sound e₀.image) : RecordedAs img e₀ R (img.content e₀.image) e₀ :=
  ⟨⟨[], by rw [append_nil], hs, rfl, rfl, by simp, by simp, fun _ _ h => h⟩, rfl⟩

variable {entries : List (ℕ × Bytes)} {e : WriteEngine ι} {c : Bytes} {offset : ℕ}

lemma RecordedBy.keeps (h : RecordedBy img e₀ R entries e) {i : ι}
    (hk : img.Keeps e.image i) : RecordedBy img e₀ R entries { e with image := i } where
  frame := by rw [h.frame]
  sound := hk.sound
  length := by rw [← h.length, hk.content]
  undone := by rw [← h.undone, hk.content]
  fits := h.fits
  within := h.within
  issued p hp hi := hk.issued p (h.issued p hp hi)

lemma RecordedAs.keeps (h : RecordedAs img e₀ R c e) {i : ι} (hk : img.Keeps e.image i) :
    RecordedAs img e₀ R c { e with image := i } := by
  obtain ⟨⟨entries, hrec⟩, hcontent⟩ := h
  exact ⟨⟨entries, hrec.keeps hk⟩, hk.content.trans hcontent⟩

/-- The bytes outside the writes are those before them. -/
lemma RecordedBy.outside (h : RecordedBy img e₀ R entries e) {p : ℕ} (hp : ¬ R p) :
    (img.content e.image)[p]? = (img.content e₀.image)[p]? := by
  have hget := (undone_spec fun entry hentry => (h.fits entry hentry).trans_eq h.length.symm).2 p
  rw [← h.undone, hget]
  intro entry hentry
  by_contra hin
  exact hp (h.within entry hentry p (by omega) (by omega))

lemma RecordedBy.overwrite (h : RecordedBy img e₀ R entries e) {n : ℕ}
    (hfits : offset + n ≤ (img.content e.image).length)
    (hin : ∀ p, offset ≤ p → p < offset + n → R p) {i : ι}
    (hw : img.Overwrites offset n e.image i) :
    RecordedBy img e₀ R (entries ++ [(offset, slice (img.content e.image) offset n)])
      { e with
        image := i
        inplaceUndo := e.inplaceUndo ++ [(offset, slice (img.content e.image) offset n)] } where
  frame := by
    rw [h.frame]
    simp
  sound := hw.sound
  length := hw.length.trans h.length
  undone := by
    simpa [Heap.undone, patch_slice_of_outside hw.length hfits hw.content] using h.undone
  fits := by
    intro entry hentry
    rcases mem_append.mp hentry with hentry | hentry
    · exact h.fits entry hentry
    · rw [mem_singleton.mp hentry, length_slice hfits, ← h.length]
      exact hfits
  within := by
    intro entry hentry p hlow hhigh
    rcases mem_append.mp hentry with hentry | hentry
    · exact h.within entry hentry p hlow hhigh
    · rw [mem_singleton.mp hentry] at hlow hhigh
      rw [length_slice hfits] at hhigh
      exact hin p hlow hhigh
  issued := by
    intro p hp hi
    have hR : ¬ R p := hp.resolve_left (by simp)
    apply hw.issued p _ (h.issued p (.inr hR) hi)
    by_contra hnot
    exact hR (hin p (by omega) (by omega))

/-! ### Calls -/

/-- A check that passes if `G` is granted. -/
lemma lift_bind_holds {α β : Type} {r : Except Error α} {f : α → Action ι β}
    {post : β → WriteEngine ι → Prop} (hG : G → ∃ a, r = .ok a)
    (hf : ∀ a, r = .ok a → (f a).Holds (RecordedAs img e₀ R c) post (Refused img e₀ R G)) :
    (Fallible.lift r >>= f).Holds (RecordedAs img e₀ R c) post (Refused img e₀ R G) := by
  apply Fallible.Holds.lift_bind hf
  intro error herr s h
  refine ⟨h.1, fun _ hgranted => ?_⟩
  obtain ⟨a, hok⟩ := hG hgranted
  cases hok.symm.trans herr

variable (hlawful : img.Lawful)

include hlawful

lemma readAt_holds {n : ℕ} (hG : G → offset + n ≤ c.length) :
    (onImage (img.readAt offset n)).Holds (RecordedAs img e₀ R c)
      (fun bytes e => RecordedAs img e₀ R c e ∧ offset + n ≤ c.length ∧ bytes = slice c offset n)
      (Refused img e₀ R G) := by
  apply Fallible.Holds.of_fst
  · intro e bytes h hok
    obtain ⟨⟨entries, hrec⟩, hcontent⟩ := h
    have hread := hlawful.read_ok hrec.sound hok
    rw [hcontent] at hread
    exact ⟨RecordedAs.keeps ⟨⟨entries, hrec⟩, hcontent⟩
      (hlawful.read_keeps hrec.sound offset n), hread⟩
  · intro e error h herr
    obtain ⟨⟨entries, hrec⟩, rfl⟩ := h
    refine ⟨⟨entries, hrec.keeps (hlawful.read_keeps hrec.sound offset n)⟩,
      fun hrel hgranted => ?_⟩
    obtain ⟨bytes, hok⟩ := hrel.read_ok hrec.sound (hG hgranted)
    cases hok.symm.trans herr

lemma readExactAt_holds {n : ℕ} (hG : G → offset + n ≤ c.length ∧ offset + n < 2 ^ 64) :
    (readExactAt img offset n).Holds (RecordedAs img e₀ R c)
      (fun bytes e => RecordedAs img e₀ R c e ∧ offset + n ≤ c.length ∧ bytes = slice c offset n)
      (Refused img e₀ R G) := by
  intro e h
  unfold readExactAt
  by_cases hadd : offset + n < 2 ^ 64
  · rw [checkedAdd_eq_some.mpr ⟨hadd, rfl⟩]
    dsimp only
    rw [h.2]
    split
    · exact Fallible.Holds.fail e ⟨h.1, fun _ hgranted => by have := hG hgranted; omega⟩
    · exact readAt_holds hlawful (fun hgranted => (hG hgranted).1) e h
  · rw [checkedAdd, if_neg hadd]
    exact Fallible.Holds.fail e ⟨h.1, fun _ hgranted => hadd (hG hgranted).2⟩

/-- **A journaled write.** Whether it succeeds or fails, the journal restores it. -/
theorem writeInplaceJournaled_holds {raw : Bytes}
    (hG : G → offset + raw.length ≤ c.length ∧ offset + raw.length < 2 ^ 64)
    (hin : ∀ p, offset ≤ p → p < offset + raw.length → R p) :
    (writeInplaceJournaled img offset raw).Holds (RecordedAs img e₀ R c)
      (fun _ => RecordedAs img e₀ R (patch c offset raw)) (Refused img e₀ R G) := by
  apply Fallible.Holds.bind (readExactAt_holds hlawful hG)
  intro prior e ⟨⟨⟨entries, h⟩, hcontent⟩, hfits, hprior⟩
  subst hcontent
  have hw : img.Overwrites offset raw.length e.image (img.writeAt offset raw e.image).2 :=
    hlawful.write_overwrites h.sound hfits
  have hrec := h.overwrite hfits hin hw
  rw [← hprior] at hrec
  -- the entry is recorded first, so that it covers a write that fails half-way
  have hwrite : (onImage (img.writeAt offset raw)).Holds
      (fun s => s = { e with inplaceUndo := e.inplaceUndo ++ [(offset, prior)] })
      (fun _ => RecordedAs img e₀ R (patch (img.content e.image) offset raw))
      (Refused img e₀ R G) := by
    apply Fallible.Holds.of_fst
    · rintro _ _ rfl hok
      exact ⟨⟨_, hrec⟩, hlawful.write_ok h.sound hfits hok⟩
    · rintro _ error rfl herr
      refine ⟨⟨_, hrec⟩, fun hrel _ => ?_⟩
      cases (hrel.write_ok h.sound hfits).symm.trans herr
  exact hwrite _ rfl

end Recorded

/-! ## Restoring -/

section Restored

variable {ι : Type} (img : FileImage ι) (e₀ : WriteEngine ι) (R : ℕ → Prop)

/-- Only bytes at positions of `R` may differ from `e₀`. -/
structure Confined (e : WriteEngine ι) : Prop where
  frame : e = { e₀ with image := e.image }
  sound : img.Sound e.image
  length : (img.content e.image).length = (img.content e₀.image).length
  outside : ∀ p, ¬ R p → (img.content e.image)[p]? = (img.content e₀.image)[p]?
  issued : ∀ p, ¬ R p → img.Issued e₀.image p → img.Issued e.image p

/-- The bytes are `c`, and nothing that `e₀` had issued is pending. -/
structure Completed (c : Bytes) (e : WriteEngine ι) : Prop where
  frame : e = { e₀ with image := e.image }
  sound : img.Sound e.image
  content : img.content e.image = c
  issued : ∀ p, img.Issued e₀.image p → img.Issued e.image p

/-- A failed scope has restored the bytes, or has marked the allocations uncertain. -/
inductive Failed : Error → WriteEngine ι → Prop
  | restored {error : Error} {e : WriteEngine ι}
      (h : Completed img e₀ (img.content e₀.image) e) : Failed error e
  | uncertain {refusal restore : Error} {e : WriteEngine ι} (h : Confined img e₀ R e) :
      Failed (.commitPartiallyApplied refusal restore) (e.makeAllocationUncertain img)

variable {img e₀ R}

/-- A call that keeps the bytes of the image, and the rest of the engine. -/
def Quiet (img : FileImage ι) (x : Action ι Unit) : Prop :=
  ∀ e, img.Sound e.image → ∃ i, (x e).2 = { e with image := i } ∧ img.Keeps e.image i

lemma Confined.keeps {e : WriteEngine ι} (h : Confined img e₀ R e) {i : ι}
    (hk : img.Keeps e.image i) : Confined img e₀ R { e with image := i } where
  frame := by rw [h.frame]
  sound := hk.sound
  length := by rw [← h.length, hk.content]
  outside p hp := by rw [← h.outside p hp, hk.content]
  issued p hp hi := hk.issued p (h.issued p hp hi)

variable (hlawful : img.Lawful)

include hlawful

/-- A barrier fails only if the image is not reliable. -/
lemma barrier_holds {P : WriteEngine ι → Prop} (hsound : ∀ e, P e → img.Sound e.image)
    (hP : ∀ e i, P e → img.Keeps e.image i → P { e with image := i }) :
    (barrier img).Holds P (fun _ => P) (fun s => P s ∧ ¬ img.Reliable) := by
  have hstep : ∀ e, P e → P (barrier img e).2 ∧ (img.Reliable → (barrier img e).1 = .ok ()) := by
    intro e h
    have hs := hsound e h
    unfold barrier
    split
    · exact ⟨hP e _ h (hlawful.syncAll_keeps hs), fun hrel => hrel.syncAll_ok hs⟩
    · exact ⟨hP e _ h (hlawful.orderingBarrier_keeps hs), fun hrel => hrel.orderingBarrier_ok hs⟩
  refine Fallible.Holds.of_fst (fun e _ h _ => (hstep e h).1) (fun e _ h herr =>
    ⟨(hstep e h).1, fun hrel => ?_⟩)
  cases ((hstep e h).2 hrel).symm.trans herr

lemma quiet_barrierData : Quiet img (barrierData img) := by
  intro e hs
  unfold barrierData
  split
  · exact ⟨_, rfl, hlawful.syncData_keeps hs⟩
  · exact ⟨_, rfl, hlawful.orderingBarrier_keeps hs⟩

/-- Prior bytes are written back to their ranges only, and all of them if no write fails. -/
lemma undoEntries_spec (entries : List (ℕ × Bytes)) {e : WriteEngine ι} (hs : img.Sound e.image)
    (hfits : ∀ entry ∈ entries, entry.1 + entry.2.length ≤ (img.content e.image).length)
    (hwithin : ∀ entry ∈ entries, ∀ p, entry.1 ≤ p → p < entry.1 + entry.2.length → R p) :
    Confined img e R (undoEntries img entries e).2 ∧
    ((undoEntries img entries e).1 = none → img.content (undoEntries img entries e).2.image =
      entries.foldl (fun c entry => patch c entry.1 entry.2) (img.content e.image)) := by
  induction entries generalizing e with
  | nil => exact ⟨⟨rfl, hs, rfl, fun _ _ => rfl, fun _ _ h => h⟩, fun _ => rfl⟩
  | cons entry rest ih =>
    obtain ⟨offset, prior⟩ := entry
    have hfit : offset + prior.length ≤ (img.content e.image).length := hfits (offset, prior) (by simp)
    have hw := hlawful.write_overwrites hs hfit
    set e₁ := (onImage (img.writeAt offset prior) e).2 with he₁
    have himage : e₁.image = (img.writeAt offset prior e.image).2 := rfl
    rw [← himage] at hw
    obtain ⟨hrest, hall⟩ := ih hw.sound
      (fun entry h => (hfits entry (by simp [h])).trans_eq hw.length.symm)
      (fun entry h => hwithin entry (by simp [h]))
    have hstate : (undoEntries img ((offset, prior) :: rest) e).2 = (undoEntries img rest e₁).2 := by
      simp only [undoEntries]
      split <;> rfl
    have hin : ∀ p, offset ≤ p → p < offset + prior.length → R p :=
      hwithin (offset, prior) (by simp)
    have hout : ∀ p, ¬ R p → p < offset ∨ offset + prior.length ≤ p := by
      intro p hp
      by_contra hnot
      exact hp (hin p (by omega) (by omega))
    rw [hstate]
    refine ⟨⟨?_, hrest.sound, hrest.length.trans hw.length, fun p hp => ?_, fun p hp hi => ?_⟩,
      fun hnone => ?_⟩
    · rw [hrest.frame]
      rfl
    · rw [hrest.outside p hp, hw.content p (hout p hp)]
    · exact hrest.issued p hp (hw.issued p (hout p hp) hi)
    · -- no write failed, so neither did the first
      have hfirst : (img.writeAt offset prior e.image).1 = .ok () ∧
          (undoEntries img rest e₁).1 = none := by
        simp only [undoEntries] at hnone
        split at hnone
        · rename_i hok
          exact ⟨hok, hnone⟩
        · cases hnone
      rw [hall hfirst.2, himage, hlawful.write_ok hs hfit hfirst.1]
      rfl

variable {entries : List (ℕ × Bytes)}

/-- An undo releases the entries since its checkpoint, and returns only if no write of it failed. -/
lemma undoInplaceSince_state {e : WriteEngine ι} {kept : List (ℕ × Bytes)}
    (hjournal : e.inplaceUndo = kept ++ entries)
    (hundo : Confined img e R (undoEntries img entries.reverse e).2) :
    ∃ i, (undoInplaceSince img kept.length e).2 = { e with image := i, inplaceUndo := kept } ∧
      img.Keeps (undoEntries img entries.reverse e).2.image i ∧
      ((undoInplaceSince img kept.length e).1 = .ok () →
        (undoEntries img entries.reverse e).1 = none) := by
  have hshort : ¬ e.inplaceUndo.length < kept.length := by
    rw [hjournal, length_append]
    omega
  unfold undoInplaceSince
  rw [if_neg hshort, hjournal, drop_left]
  dsimp only
  generalize hrun : undoEntries img entries.reverse e = run at hundo ⊢
  obtain ⟨failed, e₁⟩ := run
  dsimp only at hundo ⊢
  have htake : e₁.inplaceUndo.take kept.length = kept := by
    rw [hundo.frame]
    rw [hjournal, take_left]
  have hframe : { e₁ with inplaceUndo := kept } =
      { e with image := e₁.image, inplaceUndo := kept } := by
    rw [hundo.frame]
  have hself : img.Keeps e₁.image e₁.image := ⟨hundo.sound, rfl, fun _ h => h⟩
  rw [htake, hframe]
  by_cases hempty : entries = []
  · subst hempty
    exact ⟨e₁.image, rfl, hself, fun _ => (congrArg Prod.fst hrun).symm⟩
  rw [isEmpty_eq_false_iff.mpr hempty, if_neg (by simp)]
  cases failed with
  | some error => exact ⟨e₁.image, rfl, hself, nofun⟩
  | none =>
    obtain ⟨i, hi, hkeeps⟩ := quiet_barrierData hlawful
      { e with image := e₁.image, inplaceUndo := kept } hself.sound
    exact ⟨i, hi, hkeeps, fun _ => rfl⟩

/-- **Restoring since a checkpoint.** -/
theorem undoInplaceSince_holds :
    (undoInplaceSince img e₀.inplaceUndo.length).Holds (RecordedBy img e₀ R entries)
      (fun _ s => Confined img e₀ R s ∧ img.content s.image = img.content e₀.image)
      (Confined img e₀ R) := by
  have hstate : ∀ e, RecordedBy img e₀ R entries e →
      Confined img e₀ R (undoInplaceSince img e₀.inplaceUndo.length e).2 ∧
      ((undoInplaceSince img e₀.inplaceUndo.length e).1 = .ok () →
        img.content (undoInplaceSince img e₀.inplaceUndo.length e).2.image =
          img.content e₀.image) := by
    intro e h
    obtain ⟨hundo, hall⟩ := undoEntries_spec hlawful entries.reverse h.sound
      (fun entry hentry => (h.fits entry (mem_reverse.mp hentry)).trans_eq h.length.symm)
      (fun entry hentry => h.within entry (mem_reverse.mp hentry))
    obtain ⟨i, hi, hkeeps, hok⟩ := undoInplaceSince_state hlawful (by rw [h.frame]) hundo
    rw [hi]
    refine ⟨⟨?_, hkeeps.sound, ?_, fun p hp => ?_, fun p hp hissued => ?_⟩, fun hres => ?_⟩
    · rw [h.frame]
    · exact (congrArg length hkeeps.content).trans (hundo.length.trans h.length)
    · exact (congrArg (·[p]?) hkeeps.content).trans ((hundo.outside p hp).trans (h.outside hp))
    · exact hkeeps.issued p (hundo.issued p hp (h.issued p (.inr hp) hissued))
    · rw [hkeeps.content, hall (hok hres), foldl_reverse]
      exact h.undone
  exact Fallible.Holds.of_fst (fun e _ h hok => ⟨(hstate e h).1, (hstate e h).2 hok⟩)
    (fun e _ h _ => (hstate e h).1)

/-- A flush keeps what quiet calls keep, leaves nothing pending if it succeeds, and fails only if the
image is not reliable. -/
lemma flush_holds {P : WriteEngine ι → Prop} (hsound : ∀ e, P e → img.Sound e.image)
    (hP : ∀ e i, P e → img.Keeps e.image i → P { e with image := i }) :
    (onImage img.flush).Holds P (fun _ s => P s ∧ ∀ p, img.Issued s.image p)
      (fun s => P s ∧ ¬ img.Reliable) := by
  apply Fallible.Holds.of_fst
  · intro e _ h hok
    exact ⟨hP e _ h (hlawful.flush_keeps (hsound e h)), hlawful.flush_ok (hsound e h) hok⟩
  · intro e error h herr
    refine ⟨hP e _ h (hlawful.flush_keeps (hsound e h)), fun hrel => ?_⟩
    cases (hrel.flush_ok (hsound e h)).symm.trans herr

lemma forward_holds {c : Bytes} (result : Except Error Unit) :
    (Fallible.lift result >>= fun _ => onImage img.flush >>= fun _ =>
      barrier img : Action ι Unit).Holds
      (fun s => RecordedBy img e₀ R entries s ∧ img.content s.image = c)
      (fun _ s => (result = .ok () ∧ RecordedBy img e₀ R entries s ∧ img.content s.image = c) ∧
        ∀ p, img.Issued s.image p)
      (fun s => RecordedBy img e₀ R entries s ∧ (img.Reliable → result ≠ .ok ())) := by
  have hflush := flush_holds hlawful
    (P := fun s => result = .ok () ∧ RecordedBy img e₀ R entries s ∧ img.content s.image = c)
    (fun _ h => h.2.1.sound)
    (fun _ _ h hk => ⟨h.1, h.2.1.keeps hk, hk.content.trans h.2.2⟩)
  have hbarrier := barrier_holds hlawful
    (P := fun s => (result = .ok () ∧ RecordedBy img e₀ R entries s ∧ img.content s.image = c) ∧
      ∀ p, img.Issued s.image p)
    (fun _ h => h.1.2.1.sound)
    (fun _ _ h hk => ⟨⟨h.1.1, h.1.2.1.keeps hk, hk.content.trans h.1.2.2⟩,
      fun p => hk.issued p (h.2 p)⟩)
  cases result with
  | error error =>
    exact fun s h => Fallible.Holds.fail s ⟨h.1, nofun⟩
  | ok _ =>
    show (onImage img.flush >>= fun _ => barrier img : Action ι Unit).Holds _ _ _
    refine Fallible.Holds.bind (hflush.imp (fun _ h => ⟨rfl, h⟩) (fun _ _ h => h) ?_)
      fun _ => hbarrier.imp (fun _ h => h) (fun _ _ h => h) ?_
    · exact fun _ h => ⟨h.1.2.1, fun hrel => absurd hrel h.2⟩
    · exact fun _ h => ⟨h.1.1.2.1, fun hrel => absurd hrel h.2⟩

lemma backward_holds :
    (undoInplaceSince img e₀.inplaceUndo.length >>= fun _ => onImage img.flush).Holds
      (RecordedBy img e₀ R entries)
      (fun _ s => (Confined img e₀ R s ∧ img.content s.image = img.content e₀.image) ∧
        ∀ p, img.Issued s.image p)
      (Confined img e₀ R) := by
  have hflush := flush_holds hlawful
    (P := fun s => Confined img e₀ R s ∧ img.content s.image = img.content e₀.image)
    (fun _ h => h.1.sound) (fun _ _ h hk => ⟨h.1.keeps hk, hk.content.trans h.2⟩)
  apply (undoInplaceSince_holds hlawful).bind
  intro _
  exact hflush.imp (fun _ h => h) (fun _ _ h => h) (fun _ h => h.1.1)

open JournalScope

/-- **Completing a scope.** The writes are issued and stand, or they are undone, or the allocations
are uncertain. On a reliable image they stand unless they were refused. -/
theorem completeIssued_spec {e : WriteEngine ι} (h : RecordedBy img e₀ R entries e)
    (result : Except Error Unit) (retain : Bool) :
    (∀ s, completeIssued img e₀.inplaceUndo.length result retain e = (.ok (), s) →
      result = .ok () ∧ (retain = false → Completed img e₀ (img.content e.image) s)) ∧
    (∀ error s, completeIssued img e₀.inplaceUndo.length result retain e = (.error error, s) →
      Failed img e₀ R error s ∧ (img.Reliable → result ≠ .ok ())) := by
  have hjournal : e.inplaceUndo = e₀.inplaceUndo ++ entries := by rw [h.frame]
  by_cases hempty : entries = []
  · -- nothing was written, so the result stands
    subst hempty
    have hdone : Completed img e₀ (img.content e.image) e :=
      ⟨by rw [h.frame, append_nil], h.sound, rfl, fun p hi => h.issued p (.inl rfl) hi⟩
    have hsame : img.content e.image = img.content e₀.image := h.undone
    unfold completeIssued
    rw [if_pos (by rw [hjournal, append_nil])]
    refine ⟨fun s hs => ?_, fun error s hs => ?_⟩
    · obtain ⟨hres, rfl⟩ := Prod.mk.inj hs
      exact ⟨hres, fun _ => hdone⟩
    · cases hs
      rw [hsame] at hdone
      exact ⟨.restored hdone, nofun⟩
  · have hlen : ¬ e.inplaceUndo.length = e₀.inplaceUndo.length := by
      have := length_pos_iff.mpr hempty
      rw [hjournal, length_append]
      omega
    obtain ⟨hok, herr⟩ := forward_holds hlawful result e ⟨h, rfl⟩
    unfold completeIssued
    rw [if_neg hlen]
    rcases hrun : (Fallible.lift result >>= fun _ => onImage img.flush >>= fun _ =>
        barrier img : Action ι Unit) e with ⟨refusal | _, e₁⟩
    · -- the writes are refused
      obtain ⟨hrec, hrefused⟩ := herr refusal e₁ hrun
      obtain ⟨hback, hstuck⟩ := backward_holds hlawful e₁ hrec
      dsimp only
      rcases hundo : (undoInplaceSince img e₀.inplaceUndo.length >>= fun _ =>
        onImage img.flush) e₁ with ⟨restore | _, e₂⟩
      · refine ⟨fun s hs => ?_, fun error s hs => ?_⟩
        · cases hs
        · cases hs
          exact ⟨.uncertain (hstuck restore e₂ hundo), hrefused⟩
      · refine ⟨fun s hs => ?_, fun error s hs => ?_⟩
        · cases hs
        · cases hs
          obtain ⟨⟨hconfined, hsame⟩, hissued⟩ := hback () e₂ hundo
          exact ⟨.restored ⟨hconfined.frame, hconfined.sound, hsame, fun p _ => hissued p⟩, hrefused⟩
    · obtain ⟨⟨hres, hrec, hsame⟩, hissued⟩ := hok () e₁ hrun
      have htake : e₁.inplaceUndo.take e₀.inplaceUndo.length = e₀.inplaceUndo := by
        rw [hrec.frame]
        exact take_left
      dsimp only
      rw [htake]
      cases retain with
      | true =>
        refine ⟨fun s hs => ?_, fun error s hs => ?_⟩
        · cases hs
          exact ⟨hres, nofun⟩
        · cases hs
      | false =>
        refine ⟨fun s hs => ?_, fun error s hs => ?_⟩
        · cases hs
          refine ⟨hres, fun _ => ⟨?_, hrec.sound, hsame, fun p _ => hissued p⟩⟩
          rw [hrec.frame]
        · cases hs

section Runs

variable {x : Action ι Unit} {c : Bytes} {e : WriteEngine ι} {q G : Prop}
  (hs : img.Sound e.image)
  (hx : x.Holds (RecordedAs img e R (img.content e.image))
    (fun _ s => RecordedAs img e R c s ∧ q) (Refused img e R G))

include hs hx

/-- **A scope with a checkpoint of its own.** -/
theorem runIssued_spec : (∀ s, runIssued img x e = (.ok (), s) → Completed img e c s ∧ q) ∧
    (∀ error s, runIssued img x e = (.error error, s) →
      Failed img e R error s ∧ (img.Reliable → ¬ G)) := by
  obtain ⟨hok, herr⟩ := hx e (recordedAs_self hs)
  unfold runIssued
  rcases hrun : x e with ⟨error | _, e₁⟩
  · obtain ⟨⟨entries, h⟩, hrefused⟩ := herr error e₁ hrun
    obtain ⟨hcomplete, hfail⟩ := completeIssued_spec hlawful h (.error error) false
    refine ⟨fun s hs => ?_, fun error s hs => ⟨(hfail error s hs).1, hrefused⟩⟩
    cases (hcomplete s hs).1
  · obtain ⟨⟨⟨entries, h⟩, rfl⟩, hq⟩ := hok () e₁ hrun
    obtain ⟨hcomplete, hfail⟩ := completeIssued_spec hlawful h (.ok ()) false
    exact ⟨fun s hs => ⟨(hcomplete s hs).2 rfl, hq⟩, fun error s hs =>
      ⟨(hfail error s hs).1, fun hrel => absurd rfl ((hfail error s hs).2 hrel)⟩⟩

/-- **A scope of an unpublished operation**, from an empty journal. -/
theorem runRootless_spec (hjournal : e.inplaceUndo = []) :
    ∀ error s, runRootless img x e = (.error error, s) → Failed img e R error s := by
  obtain ⟨hok, herr⟩ := hx e (recordedAs_self hs)
  have hzero : e.inplaceUndo.length = 0 := by rw [hjournal, length_nil]
  unfold runRootless
  split
  · intro error s h
    cases h
    exact .restored ⟨rfl, hs, rfl, fun _ h => h⟩
  rw [← hzero]
  rcases hrun : x e with ⟨error | _, e₁⟩
  · obtain ⟨⟨entries, h⟩, -⟩ := herr error e₁ hrun
    exact fun error' s h' => ((completeIssued_spec hlawful h (.error error) true).2 error' s h').1
  · obtain ⟨⟨⟨entries, h⟩, rfl⟩, -⟩ := hok () e₁ hrun
    exact fun error' s h' => ((completeIssued_spec hlawful h (.ok ()) true).2 error' s h').1

end Runs

end Restored

end Hdf5Pure.Heap
