import Hdf5Pure.Image.FlushTheorems

/-!
# Reading through the pending runs

A read takes what the file has and lays the pending runs over it. The runs are walked in order from
the one that reaches the read, so that what they hold is what the overlay shows.
-/

namespace Hdf5Pure.Image

open List

variable {e : ℕ × Bytes}

namespace BufferedWrites

variable {b : BufferedWrites} {content : Bytes} {offset : ℕ}

def Ordered (l : List (ℕ × Bytes)) : Prop :=
  l.Pairwise fun e e' => e.1 + e.2.length < e'.1

def Reaches (e : ℕ × Bytes) (a : ℕ) : Prop := e.1 ≤ a ∧ a < e.1 + e.2.length

lemma ordered_entries {m : RunMap UInt8} (h : m.Apart) : Ordered m.entries := by
  apply List.Pairwise.imp_of_mem _ m.sorted
  intro e e' he he' hlt
  exact h.apart (OrdMap.get?_eq_some_iff.mpr he) (OrdMap.get?_eq_some_iff.mpr he') hlt

/-! ## The walk -/

lemma walkFrom_le (b : BufferedWrites) (offset : ℕ) : b.walkFrom offset ≤ offset := by
  unfold walkFrom
  cases hlast : b.runs.lastBelow (offset + 1) with
  | none => exact le_rfl
  | some e => exact Nat.le_of_lt_succ (OrdMap.lastBelow_eq_some hlast).2.1

/-- The walk sees every run that reaches past its start. -/
lemma mem_walk (h : b.runs.Apart) {k : ℕ} {v : Bytes} (hk : b.runs.get? k = some v)
    (hpast : offset < k + v.length) : (k, v) ∈ b.walk offset := by
  refine mem_filter.mpr ⟨OrdMap.get?_eq_some_iff.mp hk, decide_eq_true ?_⟩
  by_cases hlow : k ≤ offset
  · unfold walkFrom
    cases hlast : b.runs.lastBelow (offset + 1) with
    | none =>
      have hle := OrdMap.lastBelow_eq_none hlast hk
      omega
    | some e =>
      -- a run before the last one starting at or before `offset` does not reach it
      obtain ⟨hget, hlt, hmax⟩ := OrdMap.lastBelow_eq_some hlast
      have hle := hmax k v hk (by omega)
      by_contra hne
      have hless : k < e.1 := by
        show k < e.1
        have hgt : ¬ e.1 ≤ k := hne
        omega
      have hgap := h.apart hk hget hless
      omega
  · have hle := b.walkFrom_le offset
    omega

lemma get?_of_mem_walk (h : e ∈ b.walk offset) : b.runs.get? e.1 = some e.2 :=
  OrdMap.get?_eq_some_iff.mpr (mem_filter.mp h).1

lemma ordered_walk (h : b.runs.Apart) (offset : ℕ) : Ordered (b.walk offset) :=
  (ordered_entries h).filter _

/-! ## Overlays -/

lemma patch_run_spec {buf : Bytes} (hlow : ¬ offset + buf.length ≤ e.1)
    (hhigh : ¬ e.1 + e.2.length ≤ offset) :
    ∃ patched, patch buf (max e.1 offset - offset) (slice e.2 (max e.1 offset - e.1)
        (min (e.1 + e.2.length) (offset + buf.length) - max e.1 offset)) = patched ∧
      patched.length = buf.length ∧
      ∀ i < buf.length, (Reaches e (offset + i) → patched[i]? = e.2[offset + i - e.1]?) ∧
        (¬ Reaches e (offset + i) → patched[i]? = buf[i]?) := by
  have hslice : (slice e.2 (max e.1 offset - e.1)
      (min (e.1 + e.2.length) (offset + buf.length) - max e.1 offset)).length =
      min (e.1 + e.2.length) (offset + buf.length) - max e.1 offset := length_slice (by omega)
  refine ⟨_, rfl, ?_, fun i hi => ⟨fun hreach => ?_, fun hreach => ?_⟩⟩
  · rw [length_patch (by omega), hslice]
    omega
  · obtain ⟨hle, hlt⟩ := hreach
    rw [getElem?_patch (by omega), hslice, if_pos (by omega), getElem?_slice, if_pos (by omega)]
    congr 1
    omega
  · unfold Reaches at hreach
    rw [getElem?_patch (by omega), hslice, if_neg (by omega)]

variable {l : List (ℕ × Bytes)}

lemma length_overlayRuns (offset : ℕ) :
    ∀ buf : Bytes, (overlayRuns offset l buf).length = buf.length := by
  induction l with
  | nil => exact fun buf => rfl
  | cons e rest ih =>
    intro buf
    unfold overlayRuns
    by_cases hlow : offset + buf.length ≤ e.1
    · rw [if_pos hlow]
    rw [if_neg hlow]
    by_cases hhigh : e.1 + e.2.length ≤ offset
    · rw [if_pos hhigh, ih]
    · obtain ⟨patched, hpatched, hbuf, -⟩ := patch_run_spec hlow hhigh
      rw [if_neg hhigh, ih]
      exact (congrArg length hpatched).trans hbuf

lemma length_overlay (b : BufferedWrites) (offset : ℕ) (buf : Bytes) :
    (b.overlay offset buf).length = buf.length := by
  unfold overlay
  split
  · rfl
  · exact length_overlayRuns offset buf

lemma overlayRuns_spec (offset : ℕ) (hl : Ordered l) :
    ∀ buf : Bytes, ∀ i < buf.length, (∀ e ∈ l, Reaches e (offset + i) →
          (overlayRuns offset l buf)[i]? = e.2[offset + i - e.1]?) ∧
        ((∀ e ∈ l, ¬ Reaches e (offset + i)) → (overlayRuns offset l buf)[i]? = buf[i]?) := by
  induction l with
  | nil =>
    intro buf
    exact fun i _ => ⟨fun e he => absurd he not_mem_nil, fun _ => rfl⟩
  | cons e rest ih =>
    intro buf
    obtain ⟨hfirst, hrest⟩ := pairwise_cons.mp hl
    unfold overlayRuns
    by_cases hlow : offset + buf.length ≤ e.1
    · -- the runs from here on start past the buffer
      rw [if_pos hlow]
      refine fun i hi => ⟨fun e' he' hreach => ?_, fun _ => rfl⟩
      rcases mem_cons.mp he' with rfl | he'
      · have hle := hreach.1
        omega
      · have hlt := hfirst e' he'
        have hle := hreach.1
        omega
    rw [if_neg hlow]
    by_cases hhigh : e.1 + e.2.length ≤ offset
    · rw [if_pos hhigh]
      have hget := ih hrest buf
      refine fun i hi => ⟨fun e' he' hreach => ?_, fun hnone => ?_⟩
      · rcases mem_cons.mp he' with rfl | he'
        · have hlt := hreach.2
          omega
        · exact (hget i hi).1 e' he' hreach
      · exact (hget i hi).2 fun e' he' => hnone e' (mem_cons_of_mem _ he')
    rw [if_neg hhigh]
    obtain ⟨patched, hpatched, hbuf, hpatch⟩ := patch_run_spec hlow hhigh
    simp only [hpatched]
    intro i hi
    obtain ⟨hreached, hclean⟩ := ih hrest patched i (by omega)
    refine ⟨fun e' he' hreach => ?_, fun hnone => ?_⟩
    · rcases mem_cons.mp he' with rfl | he'
      · -- the later runs start past this one
        refine (hclean fun e'' he'' hreach'' => ?_).trans ((hpatch i hi).1 hreach)
        have hlt := hfirst e'' he''
        have hle := hreach''.1
        have hlt' := hreach.2
        omega
      · exact hreached e' he' hreach
    · exact (hclean fun e' he' => hnone e' (mem_cons_of_mem _ he')).trans
        ((hpatch i hi).2 (hnone e mem_cons_self))

/-- **The overlay shows what the runs hold**, and the buffer elsewhere. -/
theorem overlay_spec (h : b.runs.Apart) (offset : ℕ) (buf : Bytes) {i : ℕ}
    (hi : i < buf.length) :
      (∀ x, b.runs.Holds (offset + i) x → (b.overlay offset buf)[i]? = some x) ∧
      ((∀ x, ¬ b.runs.Holds (offset + i) x) → (b.overlay offset buf)[i]? = buf[i]?) := by
  unfold overlay
  by_cases htrivial : (b.runs.entries.isEmpty || buf.isEmpty) = true
  · rw [if_pos htrivial]
    refine ⟨fun x hx => ?_, fun _ => rfl⟩
    obtain ⟨k, v, hk, -⟩ := hx
    have hmem := OrdMap.get?_eq_some_iff.mp hk
    rcases Bool.or_eq_true_iff.mp htrivial with hruns | hbuf
    · rw [isEmpty_iff.mp hruns] at hmem
      exact absurd hmem not_mem_nil
    · rw [isEmpty_iff.mp hbuf] at hi
      exact absurd hi (Nat.not_lt_zero i)
  · rw [if_neg htrivial]
    obtain ⟨hheld, hclean⟩ := overlayRuns_spec offset (ordered_walk h offset) buf i hi
    refine ⟨fun x hx => ?_, fun hnone => ?_⟩
    · obtain ⟨k, v, hk, hle, hx⟩ := hx
      have hlt := RunMap.lt_of_getElem? hle hx
      exact (hheld (k, v) (mem_walk h hk (by omega)) ⟨hle, hlt⟩).trans hx
    · apply hclean
      rintro e he ⟨hle, hlt⟩
      obtain ⟨x, hx⟩ := RunMap.exists_holds (get?_of_mem_walk he) hle hlt
      exact hnone x hx

/-- Laid over bytes that the file has, the pending writes show the content. -/
lemma Coherent.overlay_eq (h : b.Coherent content) {buf : Bytes}
    (hbuf : offset + buf.length ≤ content.length)
    (hdisk : ∀ i < buf.length, offset + i < b.onDiskLen → buf[i]? = b.disk[offset + i]?) :
    b.overlay offset buf = slice content offset buf.length := by
  apply ext_getElem?
  intro i
  rw [getElem?_slice]
  by_cases hi : i < buf.length
  · rw [if_pos hi]
    obtain ⟨hheld, hclean⟩ := overlay_spec h.apart offset buf hi
    by_cases hpend : ∃ x, b.runs.Holds (offset + i) x
    · obtain ⟨x, hx⟩ := hpend
      rw [hheld x hx, h.held hx]
    have hnone : ∀ x, ¬ b.runs.Holds (offset + i) x := by
      simpa using hpend
    -- what no run holds is in the file
    have hlow : offset + i < b.onDiskLen := by
      by_contra hge
      exact hpend (h.covered (Nat.le_of_not_lt hge) (by omega))
    rw [hclean hnone, hdisk i hi hlow]
    exact h.clean hlow hnone
  · rw [if_neg hi, getElem?_eq_none (by rw [length_overlay]; omega)]

/-! ## Coverage -/

lemma coversRuns_spec (hl : Ordered l) {stop : ℕ} {reached : ℕ}
    (hcovered : ∀ a, reached ≤ a → a < stop → ∃ e ∈ l, Reaches e a) :
    coversRuns stop reached l = true := by
  induction l generalizing reached with
  | nil =>
    apply decide_eq_true
    by_contra hlt
    obtain ⟨e, he, -⟩ := hcovered reached le_rfl (by omega)
    exact absurd he not_mem_nil
  | cons e rest ih =>
    obtain ⟨hfirst, hrest⟩ := pairwise_cons.mp hl
    unfold coversRuns
    by_cases hdone : stop ≤ reached
    · rw [if_pos hdone]
    have hstart : ¬ reached < e.1 := by
      intro hlt
      obtain ⟨e', he', hreach⟩ := hcovered reached le_rfl (by omega)
      have hle := hreach.1
      rcases mem_cons.mp he' with rfl | he'
      · omega
      · have hgap := hfirst e' he'
        omega
    rw [if_neg hdone, if_neg hstart]
    apply ih hrest
    intro a hle hlt
    obtain ⟨e', he', hreach⟩ := hcovered a (by omega) hlt
    rcases mem_cons.mp he' with rfl | he'
    · have hlt' := hreach.2
      omega
    · exact ⟨e', he', hreach⟩

/-- The runs cover what the file does not have. -/
lemma Coherent.covers (h : b.Coherent content) {start stop : ℕ} (hstart : b.onDiskLen ≤ start)
    (hstop : stop ≤ content.length) : b.covers start stop = true := by
  apply coversRuns_spec (ordered_walk h.apart _)
  intro a hle hlt
  obtain ⟨x, k, v, hk, hlow, hget⟩ := h.covered (hstart.trans hle) (by omega)
  have hhigh := RunMap.lt_of_getElem? hlow hget
  exact ⟨(k, v), mem_walk h.apart hk (by omega), hlow, hhigh⟩

lemma runsHold_of_ordered (hl : Ordered l) (hne : ∀ e ∈ l, e.2 ≠ []) :
    ∀ {stop : Option ℕ}, (∀ e ∈ l, ∀ s ∈ stop, s < e.1) → runsHold stop l = true := by
  induction l with
  | nil => exact fun _ => rfl
  | cons e rest ih =>
    intro stop hstop
    obtain ⟨hfirst, hrest⟩ := pairwise_cons.mp hl
    have hhead : (stop.any fun s => decide (e.1 ≤ s)) = false := by
      cases stop with
      | none => rfl
      | some s =>
        have hlt := hstop e mem_cons_self s rfl
        exact decide_eq_false (by omega)
    have hempty : e.2.isEmpty = false := by
      simpa using hne e mem_cons_self
    unfold runsHold
    rw [hhead, hempty, ih hrest (fun e' he' => hne e' (mem_cons_of_mem _ he'))]
    · rfl
    · intro e' he' s hs
      cases hs
      exact hfirst e' he'

lemma Coherent.invariantsHold (h : b.Coherent content) : b.invariantsHold = true := by
  unfold BufferedWrites.invariantsHold
  rw [runsHold_of_ordered (ordered_entries h.apart)]
  · exact decide_eq_true h.pending.symm
  · exact fun e he => h.apart.nonempty (OrdMap.get?_eq_some_iff.mpr he)
  · intro e _ s hs
    cases hs

end BufferedWrites

end Hdf5Pure.Image
