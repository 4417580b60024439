import Hdf5Pure.Image.FlushTheorems

/-!
# Writes to a buffered file

A write patches the content, whether it is issued, absorbed into the pending runs or flushed with
them. Resizing cuts the content off.
-/

namespace Hdf5Pure.Image

open List

open Edit (Error)

namespace BufferedWrites

variable {b b' : BufferedWrites} {content : Bytes} {offset : ℕ} {bytes : Bytes}

/-- A state between two operations. No fault is due, and nothing is pending without a buffer. -/
structure Settled (b : BufferedWrites) (content : Bytes) : Prop where
  coherent : b.Coherent content
  faultless : b.faults = []
  unbuffered : b.mode = .unbuffered → b.runs = .empty

lemma settled_new (disk : Bytes) : (new disk).Settled disk :=
  ⟨coherent_new disk, rfl, fun _ => rfl⟩

/-! ## Flushes without faults -/

lemma flush_empty (h : b.runs = .empty) : b.flush = (.ok (), b) := by
  unfold flush
  rw [h]
  rfl

/-- Without a fault a flush succeeds and leaves nothing pending. -/
lemma Settled.flush_eq (h : b.Settled content) (hcontent : content.length < 2 ^ 64) :
    ∃ b', b.flush = (.ok (), b') ∧ b'.Settled content ∧ b'.runs = .empty := by
  have hflush := flush_spec h.coherent hcontent
  rcases hflush.result with ⟨hok, hempty⟩ | ⟨-, hne⟩
  · have hfaults : b.flush.2.faults = [] := suffix_nil.mp (h.faultless ▸ hflush.faults)
    exact ⟨b.flush.2, Prod.ext hok rfl, ⟨hflush.coherent, hfaults, fun _ => hempty⟩, hempty⟩
  · exact absurd h.faultless hne

/-! ## Writing -/

/-- What a write leaves: the content with some of its bytes, with all of them if it succeeds. -/
structure Wrote (b : BufferedWrites) (offset : ℕ) (bytes content content' : Bytes)
    (r : Except Error Unit) (b' : BufferedWrites) : Prop where
  coherent : b'.Coherent content'
  patched : ∃ n, content' = patch content offset (bytes.take n)
  unbuffered : b'.mode = .unbuffered → b'.runs = .empty
  faults : b'.faults <:+ b.faults
  written : ∀ {a}, a < offset ∨ offset + bytes.length ≤ a → b.Written content a →
    b'.Written content' a
  result : (r = .ok () ∧ content' = patch content offset bytes) ∨ (r = .error .io ∧ b.faults ≠ [])

lemma Coherent.written (h : b.Coherent content) (hempty : b.runs = .empty) (a : ℕ) :
    b.Written content a := by
  unfold Written
  rw [(h.disk_eq hempty).1]

/-- With nothing pending, bytes written to the file patch the content. -/
lemma Coherent.fileWrite (h : b.Coherent content) (hempty : b.runs = .empty)
    (hoff : offset ≤ content.length) (bytes : Bytes) (faults : List (Option ℕ)) :
    Coherent { b with
      disk := Image.fileWrite b.disk offset bytes
      faults := faults
      onDiskLen := max b.onDiskLen (offset + bytes.length) } (patch content offset bytes) := by
  obtain ⟨hdisk, honDisk⟩ := h.disk_eq hempty
  have hpatched : Image.fileWrite b.disk offset bytes = patch content offset bytes := by
    unfold Image.fileWrite
    by_cases hnil : bytes = []
    · rw [if_pos (isEmpty_iff.mpr hnil), hnil, patch_nil, hdisk]
    · rw [if_neg (by simpa using hnil), hdisk, Nat.sub_eq_zero_of_le hoff, replicate_zero,
        append_nil]
  have hlen := length_patch hoff bytes
  have hnone : ∀ a x, ¬ b.runs.Holds a x := by
    rw [hempty]
    exact RunMap.not_holds_empty
  refine ⟨h.apart, h.pending, ?_, ?_, ?_, ?_, ?_⟩
  · intro a x hx
    exact absurd hx (hnone a x)
  · intro a _ _
    exact congrArg (·[a]?) hpatched
  · show max b.onDiskLen (offset + bytes.length) ≤ (Image.fileWrite b.disk offset bytes).length
    rw [hpatched, hlen, honDisk]
  · show (Image.fileWrite b.disk offset bytes).length ≤ _
    rw [hpatched]
  · intro a hle hlt
    have hge : max b.onDiskLen (offset + bytes.length) ≤ a := hle
    omega

/-- A write to the file with nothing pending. It may fail within the content only, whose length it
would not record. -/
lemma Coherent.issue_spec (h : b.Coherent content) (hempty : b.runs = .empty)
    (hoff : offset ≤ content.length) (bytes : Bytes)
    (hfaults : b.faults = [] ∨ offset + bytes.length ≤ content.length) :
    (∃ content', Wrote b offset bytes content content' (b.issue offset bytes).1
      (b.issue offset bytes).2) ∧ (b.issue offset bytes).2.runs = .empty := by
  have hall := fun faults => h.fileWrite hempty hoff bytes faults
  have hpatched : ∃ n, patch content offset bytes = patch content offset (bytes.take n) :=
    ⟨bytes.length, by rw [take_length]⟩
  unfold issue
  cases hcases : b.faults with
  | nil =>
    exact ⟨⟨_, hall [], hpatched, fun _ => hempty, nil_suffix,
      fun _ _ => (hall []).written hempty _, .inl ⟨rfl, rfl⟩⟩, hempty⟩
  | cons fault faults =>
    have hsuffix : faults <:+ b.faults := hcases ▸ suffix_cons fault faults
    cases fault with
    | none =>
      exact ⟨⟨_, hall faults, hpatched, fun _ => hempty, hsuffix,
        fun _ _ => (hall faults).written hempty _, .inl ⟨rfl, rfl⟩⟩, hempty⟩
    | some n =>
      have hne : b.faults ≠ [] := hcases ▸ cons_ne_nil _ _
      have hin := hfaults.resolve_left hne
      have hcoh := h.fileWrite hempty hoff (bytes.take n) faults
      have hlen : max b.onDiskLen (offset + (bytes.take n).length) = b.onDiskLen := by
        rw [(h.disk_eq hempty).2, length_take]
        omega
      rw [hlen] at hcoh
      exact ⟨⟨_, hcoh, ⟨n, rfl⟩, fun _ => hempty, hsuffix,
        fun _ _ => hcoh.written hempty _, .inr ⟨rfl, hne⟩⟩, hempty⟩

lemma Settled.of_wrote (h : b.Settled content) {content' : Bytes} {r : Except Error Unit}
    (hwrote : Wrote b offset bytes content content' r b') :
    r = .ok () ∧ b'.Settled (patch content offset bytes) := by
  rcases hwrote.result with ⟨hok, rfl⟩ | ⟨-, hne⟩
  · exact ⟨hok, hwrote.coherent, suffix_nil.mp (h.faultless ▸ hwrote.faults), hwrote.unbuffered⟩
  · exact absurd h.faultless hne

lemma Settled.issue_eq (h : b.Settled content) (hempty : b.runs = .empty)
    (hoff : offset ≤ content.length) (bytes : Bytes) :
    ∃ b', b.issue offset bytes = (.ok (), b') ∧ b'.Settled (patch content offset bytes) ∧
      b'.runs = .empty := by
  obtain ⟨⟨content', hwrote⟩, hruns⟩ := h.coherent.issue_spec hempty hoff bytes (.inl h.faultless)
  obtain ⟨hok, hsettled⟩ := h.of_wrote hwrote
  exact ⟨_, Prod.ext hok rfl, hsettled, hruns⟩

lemma Coherent.absorb (h : b.Coherent content) (hbytes : bytes ≠ [])
    (hoff : offset ≤ content.length) :
    (b.absorb offset bytes).Coherent (patch content offset bytes) := by
  have habs := absorb_spec h.apart h.pending hbytes offset
  have hlen := length_patch hoff bytes
  have hget := getElem?_patch hoff bytes
  have honDisk : (b.absorb offset bytes).onDiskLen = b.onDiskLen := by rw [habs.frame]
  have hdisk : (b.absorb offset bytes).disk = b.disk := by rw [habs.frame]
  have hin : ∀ {a}, offset ≤ a → a < offset + bytes.length →
      ∃ x, (b.absorb offset bytes).runs.Holds a x := by
    intro a hle hlt
    have hbound : a - offset < bytes.length := by omega
    refine ⟨bytes[a - offset], (habs.holds a _).mpr ?_⟩
    rw [if_pos ⟨hle, hlt⟩]
    exact getElem?_eq_getElem hbound
  refine ⟨habs.apart, habs.pending, ?_, ?_, ?_, ?_, ?_⟩
  · intro a x hx
    have hx := (habs.holds a x).mp hx
    rw [hget]
    split_ifs at hx ⊢
    · exact hx
    · exact h.held hx
  · intro a ha hnone
    have hout : ¬ (offset ≤ a ∧ a < offset + bytes.length) := by
      rintro ⟨hle, hlt⟩
      obtain ⟨x, hx⟩ := hin hle hlt
      exact hnone x hx
    rw [hdisk, hget, if_neg hout]
    rw [honDisk] at ha
    apply h.clean ha
    intro x hx
    apply hnone x
    rw [habs.holds, if_neg hout]
    exact hx
  · rw [honDisk, hdisk]
    exact h.onDisk_le
  · rw [hdisk, hlen]
    exact h.disk_le.trans (le_max_left _ _)
  · intro a hle hlt
    by_cases hrange : offset ≤ a ∧ a < offset + bytes.length
    · exact hin hrange.1 hrange.2
    · -- past the write only old content is left
      obtain ⟨x, hx⟩ := h.covered (honDisk ▸ hle) (by omega)
      refine ⟨x, (habs.holds a x).mpr ?_⟩
      rw [if_neg hrange]
      exact hx

/-- The flush before a write, or after it. -/
lemma Flushed.wrote {b₀ : BufferedWrites} {content' : Bytes} {r : Except Error Unit}
    (h : Flushed b b' r content') (hpatched : ∃ n, content' = patch content offset (bytes.take n))
    (hmode : b.mode ≠ .unbuffered) (hfaults : b.faults = b₀.faults)
    (hwritten : ∀ {a}, a < offset ∨ offset + bytes.length ≤ a → b₀.Written content a →
      b.Written content' a)
    (hok : r = .ok () → content' = patch content offset bytes) :
    Wrote b₀ offset bytes content content' r b' where
  coherent := h.coherent
  patched := hpatched
  unbuffered hm := absurd (h.mode.symm.trans hm) hmode
  faults := hfaults ▸ h.faults
  written ha hw := h.written (hwritten ha hw)
  result := h.result.imp (fun hr => ⟨hr.1, hok hr.1⟩) fun hr => ⟨hr.1, hfaults ▸ hr.2⟩

/-- **A write, in every mode.** What a failed write has changed lies in its range. -/
theorem Coherent.writeAt_spec (h : b.Coherent content)
    (hunbuffered : b.mode = .unbuffered → b.runs = .empty) (hoff : offset ≤ content.length)
    (bytes : Bytes) (hfaults : b.faults = [] ∨ offset + bytes.length ≤ content.length)
    (hbound : (patch content offset bytes).length < 2 ^ 64) :
    ∃ content', Wrote b offset bytes content content' (b.writeAt offset bytes).1
      (b.writeAt offset bytes).2 := by
  have hlen := length_patch hoff bytes
  have hnothing : ∃ n, content = patch content offset (bytes.take n) :=
    ⟨0, by rw [take_zero, patch_nil]⟩
  have hpatched : ∃ n, patch content offset bytes = patch content offset (bytes.take n) :=
    ⟨bytes.length, by rw [take_length]⟩
  unfold writeAt
  by_cases hempty : bytes = []
  · rw [if_pos (isEmpty_iff.mpr hempty)]
    refine ⟨content, h, hnothing, hunbuffered, suffix_refl _, fun _ ha => ha, .inl ⟨rfl, ?_⟩⟩
    rw [hempty, patch_nil]
  rw [if_neg (by simpa using hempty)]
  cases hmode : b.mode.budget with
  | none =>
    have hmode' : b.mode = .unbuffered := by
      cases hm : b.mode <;> simp_all [WriteBuffering.budget]
    exact (h.issue_spec (hunbuffered hmode') hoff bytes hfaults).1
  | some budget =>
    have hbuffered : b.mode ≠ .unbuffered := by
      intro hm
      rw [hm] at hmode
      cases hmode
    simp only
    by_cases hlarge : budget.2 ≤ bytes.length
    · -- a write as large as the budget goes to the file after the pending ones
      rw [if_pos hlarge]
      have hflush := flush_spec h (by omega)
      rcases hrun : b.flush with ⟨r, b₁⟩
      rw [hrun] at hflush
      rcases hflush.result with ⟨rfl, hruns⟩ | ⟨rfl, -⟩
      · have hnil : b.faults = [] → b₁.faults = [] := fun hnil =>
          suffix_nil.mp (hnil ▸ hflush.faults)
        obtain ⟨⟨content', hwrote⟩, -⟩ :=
          hflush.coherent.issue_spec hruns hoff bytes (hfaults.imp_left hnil)
        exact ⟨content', hwrote.coherent, hwrote.patched, hwrote.unbuffered,
          hwrote.faults.trans hflush.faults,
          fun ha hwritten => hwrote.written ha (hflush.written hwritten),
          hwrote.result.imp_right fun hfail => ⟨hfail.1, fun hb => hfail.2 (hnil hb)⟩⟩
      · exact ⟨content, hflush.wrote hnothing hbuffered rfl (fun _ ha => ha) nofun⟩
    rw [if_neg hlarge]
    have habs := absorb_spec h.apart h.pending hempty offset
    have hcoh := h.absorb hempty hoff
    have hframe : (b.absorb offset bytes).mode = b.mode ∧
        (b.absorb offset bytes).faults = b.faults ∧ (b.absorb offset bytes).disk = b.disk := by
      rw [habs.frame]
      exact ⟨rfl, rfl, rfl⟩
    obtain ⟨hmode', hfaults', hdisk⟩ := hframe
    have hwritten : ∀ {a}, a < offset ∨ offset + bytes.length ≤ a → b.Written content a →
        (b.absorb offset bytes).Written (patch content offset bytes) a := by
      intro a ha hwritten
      unfold Written
      rw [hdisk, getElem?_patch hoff, if_neg (by omega)]
      exact hwritten
    by_cases hfull : budget.2 < (b.absorb offset bytes).pendingBytes
    · rw [if_pos hfull]
      exact ⟨_, (flush_spec hcoh hbound).wrote hpatched (hmode' ▸ hbuffered) hfaults' hwritten
        fun _ => rfl⟩
    · rw [if_neg hfull]
      exact ⟨_, hcoh, hpatched, fun hm => absurd (hmode'.symm.trans hm) hbuffered,
        hfaults' ▸ suffix_refl _, hwritten, .inl ⟨rfl, rfl⟩⟩

/-- **A write patches the content**, in every mode. -/
theorem Settled.writeAt_eq (h : b.Settled content) (hoff : offset ≤ content.length)
    (bytes : Bytes) (hbound : (patch content offset bytes).length < 2 ^ 64) :
    ∃ b', b.writeAt offset bytes = (.ok (), b') ∧ b'.Settled (patch content offset bytes) := by
  obtain ⟨content', hwrote⟩ :=
    h.coherent.writeAt_spec h.unbuffered hoff bytes (.inl h.faultless) hbound
  obtain ⟨hok, hsettled⟩ := h.of_wrote hwrote
  exact ⟨_, Prod.ext hok rfl, hsettled⟩

/-! ## Zeros -/

/-- A range of zeros larger than the budget begins with nothing pending. -/
lemma Settled.beginZeroRange_eq (h : b.Settled content) (hcontent : content.length < 2 ^ 64)
    (length : ℕ) :
    ∃ bypass b', b.beginZeroRange length = (.ok bypass, b') ∧ b'.Settled content ∧
      (bypass = true → b'.runs = .empty) := by
  unfold beginZeroRange
  cases hbypass : (decide (length ≠ 0) &&
      b.mode.budget.any fun budget => decide (budget.2 ≤ length)) with
  | false => exact ⟨false, b, rfl, h, nofun⟩
  | true =>
    obtain ⟨b₁, hflush, hsettled, hruns⟩ := h.flush_eq hcontent
    rw [hflush]
    exact ⟨true, b₁, rfl, hsettled, fun _ => hruns⟩

lemma Settled.writeZeroChunk_eq (h : b.Settled content) (hoff : offset ≤ content.length)
    (bytes : Bytes) (hbound : (patch content offset bytes).length < 2 ^ 64) {bypass : Bool}
    (hbypass : bypass = true → b.runs = .empty) :
    ∃ b', b.writeZeroChunk offset bytes bypass = (.ok (), b') ∧
      b'.Settled (patch content offset bytes) ∧ (bypass = true → b'.runs = .empty) := by
  cases bypass with
  | false =>
    obtain ⟨b', hwrite, hsettled⟩ := h.writeAt_eq hoff bytes hbound
    exact ⟨b', hwrite, hsettled, nofun⟩
  | true =>
    obtain ⟨b', hissue, hsettled, hruns⟩ := h.issue_eq (hbypass rfl) hoff bytes
    exact ⟨b', hissue, hsettled, fun _ => hruns⟩

/-! ## Resizing -/

lemma dropRuns_spec (doomed : List ℕ) {b : BufferedWrites} (hpend : b.pendingBytes = b.runs.total) :
    (dropRuns doomed b).pendingBytes = (dropRuns doomed b).runs.total ∧
  (dropRuns doomed b) = { b with
    runs := (dropRuns doomed b).runs, pendingBytes := (dropRuns doomed b).pendingBytes } ∧
  ∀ k, (dropRuns doomed b).runs.get? k = if k ∈ doomed then none else b.runs.get? k := by
  induction doomed generalizing b with
  | nil => exact ⟨hpend, rfl, fun k => by rw [if_neg not_mem_nil]; rfl⟩
  | cons d doomed ih =>
    have htotal : b.pendingBytes - ((b.runs.get? d).getD []).length =
        RunMap.total (b.runs.remove d) := by
      cases hd : b.runs.get? d with
      | none =>
        have hsame : b.runs.remove d = b.runs := by
          apply OrdMap.ext_get?
          intro k
          grind [OrdMap.get?_remove]
        rw [hsame, hpend]
        rfl
      | some v =>
        have hrem := RunMap.total_remove hd
        rw [hpend, Option.getD_some]
        omega
    obtain ⟨hpending', hframe, hget⟩ := ih (b := { b with
      runs := b.runs.remove d
      pendingBytes := b.pendingBytes - ((b.runs.get? d).getD []).length }) htotal
    refine ⟨hpending', hframe, fun k => ?_⟩
    show (dropRuns doomed _).runs.get? k = _
    rw [hget, OrdMap.get?_remove]
    by_cases hk : k = d <;> simp [hk]

lemma cut_last {runs : RunMap UInt8} (hapart : runs.Apart) {len k : ℕ} {v : Bytes}
    (hlast : runs.lastBelow len = some (k, v)) (hlow : ∀ k' v', runs.get? k' = some v' → k' < len) :
    runs.Cut (runs.insert k (v.take (len - k))) len := by
  obtain ⟨hk, hlt, hmax⟩ := OrdMap.lastBelow_eq_some hlast
  intro k'
  rw [OrdMap.get?_insert]
  by_cases heq : k' = k
  · rw [if_pos heq, heq, if_neg (by omega), hk, Option.map_some]
  rw [if_neg heq]
  cases hk' : runs.get? k' with
  | none => simp
  | some v' =>
    -- a run before the last one ends before it starts
    have hless := hlow k' v' hk'
    have hgap := hapart.apart hk' hk (by have hle := hmax k' v' hk' hless; omega)
    rw [if_neg (by omega), Option.map_some, take_of_length_le (by omega)]

lemma discardFrom_spec (hapart : b.runs.Apart) (hpend : b.pendingBytes = b.runs.total) (len : ℕ) :
    b.discardFrom len = { b with
      runs := (b.discardFrom len).runs, pendingBytes := (b.discardFrom len).pendingBytes } ∧
    (b.discardFrom len).pendingBytes = (b.discardFrom len).runs.total ∧
    b.runs.Cut (b.discardFrom len).runs len := by
  set doomed := (b.runs.entries.filter fun e => decide (len ≤ e.1)).map Prod.fst with hdoomed
  obtain ⟨hpending₁, hframe, hget⟩ := dropRuns_spec doomed hpend
  have hkept : ∀ k v, (dropRuns doomed b).runs.get? k = some v ↔
      k < len ∧ b.runs.get? k = some v := by
    intro k v
    have hmem : k ∈ doomed ↔ len ≤ k ∧ ∃ v, b.runs.get? k = some v := by
      simp [hdoomed, OrdMap.get?_eq_some_iff, and_comm]
    grind
  unfold discardFrom
  simp only [← hdoomed]
  generalize dropRuns doomed b = b₁ at hpending₁ hframe hkept
  have hapart₁ : b₁.runs.Apart :=
    ⟨fun hk => hapart.nonempty ((hkept _ _).mp hk).2,
      fun hk hk' => hapart.apart ((hkept _ _).mp hk).2 ((hkept _ _).mp hk').2⟩
  have hcut : ∀ {m : RunMap UInt8}, b₁.runs.Cut m len → b.runs.Cut m len := by
    intro m hm k
    rw [hm k]
    by_cases hk : len ≤ k
    · rw [if_pos hk, if_pos hk]
    have hsame : b₁.runs.get? k = b.runs.get? k := by
      apply Option.ext
      intro v
      rw [hkept]
      exact ⟨fun h => h.2, fun h => ⟨by omega, h⟩⟩
    rw [if_neg hk, if_neg hk, hsame]
  cases hlast : b₁.runs.lastBelow len with
  | none =>
    refine ⟨hframe, hpending₁, hcut fun k => ?_⟩
    have hnone : b₁.runs.get? k = none := by
      apply Option.eq_none_iff_forall_ne_some.mpr
      intro v hv
      have hle := OrdMap.lastBelow_eq_none hlast hv
      have hlt := ((hkept _ _).mp hv).1
      omega
    simp [hnone]
  | some e =>
    obtain ⟨k, v⟩ := e
    have hcut₁ := hcut (cut_last hapart₁ hlast fun k' v' hk' => ((hkept k' v').mp hk').1)
    obtain ⟨hk, hlt, -⟩ := OrdMap.lastBelow_eq_some hlast
    simp only at hk hlt
    simp only
    by_cases hlong : len - k < v.length
    · rw [if_pos hlong]
      refine ⟨by rw [hframe], ?_, hcut₁⟩
      have htotal := RunMap.total_insert_present hk (v.take (len - k))
      rw [length_take, Nat.min_eq_left hlong.le] at htotal
      show b₁.pendingBytes - (v.length - (len - k)) =
        RunMap.total (b₁.runs.insert k (v.take (len - k)))
      omega
    · rw [if_neg hlong]
      refine ⟨hframe, hpending₁, ?_⟩
      rw [take_of_length_le (by omega), OrdMap.insert_get? hk] at hcut₁
      exact hcut₁

lemma length_fileSetLen (disk : Bytes) (len : ℕ) : (fileSetLen disk len).length = len := by
  rw [fileSetLen, length_append, length_take, length_replicate]
  omega

/-- **Resizing to at most the length cuts the content off** and leaves it in the file. -/
theorem Settled.setLen_eq (h : b.Settled content) (hcontent : content.length < 2 ^ 64) {len : ℕ}
    (hlen : len ≤ content.length) :
    ∃ b', b.setLen len = (.ok (), b') ∧ b'.Settled (content.take len) := by
  have htake : (content.take len).length = len := by
    rw [length_take]
    omega
  obtain ⟨hframe, hpend, hcut⟩ := discardFrom_spec (b := { b with disk := fileSetLen b.disk len })
    h.coherent.apart h.coherent.pending len
  unfold setLen
  simp only
  generalize ({ b with disk := fileSetLen b.disk len } : BufferedWrites).discardFrom len = b₁
    at hframe hpend hcut ⊢
  have hsettled : Settled { b₁ with onDiskLen := len } (content.take len) := by
    refine ⟨⟨hcut.apart h.coherent.apart, hpend, ?_, ?_, ?_, ?_, ?_⟩, ?_, ?_⟩
    · intro a x hx
      obtain ⟨hx, hlt⟩ := (hcut.holds a x).mp hx
      rw [getElem?_take_of_lt hlt]
      exact h.coherent.held hx
    · intro a ha hnone
      have halt : a < len := ha
      have hnone' : ∀ x, ¬ b.runs.Holds a x :=
        fun x hx => hnone x ((hcut.holds a x).mpr ⟨hx, halt⟩)
      -- an address the file did not have is pending still
      have hlow : a < b.onDiskLen := by
        by_contra hge
        obtain ⟨x, hx⟩ := h.coherent.covered (show b.onDiskLen ≤ a by omega) (by omega)
        exact hnone' x hx
      have honDisk := h.coherent.onDisk_le
      show b₁.disk[a]? = (content.take len)[a]?
      rw [hframe, getElem?_take_of_lt halt]
      show (fileSetLen b.disk len)[a]? = content[a]?
      rw [fileSetLen, getElem?_append_left (by rw [length_take]; omega),
        getElem?_take_of_lt halt]
      exact h.coherent.clean hlow hnone'
    · show len ≤ b₁.disk.length
      rw [hframe]
      exact (length_fileSetLen _ _).ge
    · show b₁.disk.length ≤ _
      rw [hframe, htake]
      exact (length_fileSetLen _ _).le
    · intro a hle hlt
      have hge : len ≤ a := hle
      omega
    · show b₁.faults = []
      rw [hframe]
      exact h.faultless
    · intro hmode
      have hmode' : b₁.mode = .unbuffered := hmode
      rw [hframe] at hmode'
      have hempty := h.unbuffered hmode'
      apply OrdMap.ext_get?
      intro k
      show b₁.runs.get? k = none
      rw [hcut k, show b.runs.get? k = none by rw [hempty]; rfl]
      simp
  obtain ⟨b', hflush, hsettled', -⟩ := hsettled.flush_eq (by omega)
  exact ⟨b', hflush, hsettled'⟩

end BufferedWrites

end Hdf5Pure.Image
