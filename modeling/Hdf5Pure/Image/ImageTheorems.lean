import Hdf5Pure.Image.Images
import Hdf5Pure.Image.MetadataCacheTheorems
import Hdf5Pure.Image.OverlayTheorems
import Hdf5Pure.Image.WriteTheorems
import Hdf5Pure.Utils.Runs

/-!
# File images behave as lists of bytes

Each image shows a content: its pending writes and the file denote it, and its length and cache, or
its mirror, agree. Every operation does to the content what it does to the plain list.
-/

namespace Hdf5Pure.Image

open List

open Edit (Error)

variable {content : Bytes} {offset n : ℕ} {bytes : Bytes}

/-! ## Zero ranges -/

variable {start length : ℕ}

lemma emitLoop_spec {σ : Type} {write : ℕ → Bytes → σ → Checked (Except Error Unit × σ)}
    {scratch : ℕ} (hscratch : 0 < scratch) {P : ℕ → σ → Prop}
    (hwrite : ∀ k n s, P k s → k + n ≤ length →
      ∃ s', write (start + k) (replicate n 0) s = .ok (.ok (), s') ∧ P (k + n) s')
    (fuel : ℕ) {k : ℕ} {s : σ} (hP : P k s) (hle : k ≤ length) (hfuel : length - k ≤ fuel) :
    ∃ s', emitLoop write (start + length) scratch fuel (start + k) s = .ok (.ok (), s') ∧
      P length s' := by
  induction fuel generalizing k s with
  | zero =>
    obtain rfl : k = length := by omega
    exact ⟨s, rfl, hP⟩
  | succ fuel ih =>
    unfold emitLoop
    by_cases hmore : start + k < start + length
    · rw [if_pos hmore]
      obtain ⟨s₁, hbatch, hP₁⟩ :=
        hwrite k (min (start + length - (start + k)) scratch) s hP (by omega)
      obtain ⟨s₂, hrest, hP₂⟩ := ih hP₁ (by omega) (by omega)
      rw [← Nat.add_assoc] at hrest
      simp only [hbatch, Checked.ok_bind, hrest]
      exact ⟨s₂, rfl, hP₂⟩
    · rw [if_neg hmore]
      obtain rfl : k = length := by omega
      exact ⟨s, rfl, hP⟩

variable {append : Bool} {len : ℕ} {disk : Bytes}

/-- A range of zeros lies within the image or starts at its end. -/
lemma appends_eq_ok (h : appends start length len = .ok append) :
    length = 0 ∨ (append = true ∧ start = len) ∨ (append = false ∧ start + length ≤ len) := by
  unfold appends at h
  split_ifs at h with hlen hstart hstop
  · exact .inl hlen
  · exact .inr (.inl ⟨(Except.ok.inj h).symm, hstart⟩)
  · exact .inr (.inr ⟨(Except.ok.inj h).symm, not_lt.mp hstop⟩)

def ZeroBatch (append : Bool) (offset n len : ℕ) : Prop :=
  (append = true ∧ offset = len ∧ len + n < 2 ^ 64) ∨ (append = false ∧ offset + n ≤ len)

/-- A range of zeros patches the content if every batch does. -/
lemma emit_zeros {σ : Type} {write : ℕ → Bytes → σ → Checked (Except Error Unit × σ)}
    {P : Bytes → σ → Prop} {Q : σ → Prop}
    (hwrite : ∀ {content offset bytes s}, P content s → Q s →
      ZeroBatch append offset bytes.length content.length →
      ∃ s', write offset bytes s = .ok (.ok (), s') ∧ P (patch content offset bytes) s' ∧ Q s')
    (hbound : start + length < 2 ^ 64)
    (happends : appends start length content.length = .ok append) {s : σ} (hP : P content s)
    (hQ : Q s) : ∃ s', emit write start length s = .ok (.ok (), s') ∧
      P (patch content start (replicate length 0)) s' := by
  by_cases hlength : length = 0
  · -- an empty range may lie anywhere
    refine ⟨s, if_pos hlength, ?_⟩
    rw [hlength, replicate_zero, patch_nil]
    exact hP
  have hrange := (appends_eq_ok happends).resolve_left hlength
  have hstart : start ≤ content.length := by omega
  have hemit : ∃ s', emit write start length s = .ok (.ok (), s') ∧
      P (patch content start (replicate length 0)) s' ∧ Q s' := by
    rw [emit, if_neg hlength]
    apply emitLoop_spec
      (by unfold scratchLength zeroBatchBytes; omega) _ length _ (Nat.zero_le _) (Nat.sub_le _ _)
    · intro k n s h hle
      have hlen := length_patch hstart (replicate k (0 : UInt8))
      rw [length_replicate] at hlen
      have hbatch : ZeroBatch append (start + k) n
          (patch content start (replicate k 0)).length := by
        rcases hrange with ⟨rfl, rfl⟩ | ⟨rfl, hin⟩
        · exact .inl ⟨rfl, by omega, by omega⟩
        · exact .inr ⟨rfl, by omega⟩
      have happend := patch_append hstart (replicate k (0 : UInt8)) (replicate n 0)
      rw [length_replicate, replicate_append_replicate] at happend
      rw [← happend]
      exact hwrite h.1 h.2 (by rwa [length_replicate])
    · rw [replicate_zero, patch_nil]
      exact ⟨hP, hQ⟩
  obtain ⟨s', hs, hP', -⟩ := hemit
  exact ⟨s', hs, hP'⟩

/-! ## Drains -/

namespace BufferedWrites

variable {b : BufferedWrites}

lemma Settled.flush_cases (h : b.Settled content) (hcontent : content.length < 2 ^ 64)
    (faults : List (Option ℕ)) :
    ∃ r b', ({ b with faults := faults } : BufferedWrites).flush = (r, b') ∧
      ({ b' with faults := [] } : BufferedWrites).Settled content ∧
      ((r = .ok () ∧ b'.runs = .empty) ∨ (r = .error .io ∧ faults ≠ [])) := by
  have hflush := flush_spec (h.coherent.frame faults b.mode) hcontent
  refine ⟨_, _, rfl, ⟨hflush.coherent.frame [] _, rfl, fun hmode => ?_⟩, hflush.result⟩
  -- without a buffer there is nothing to flush
  have hempty : b.runs = .empty := h.unbuffered (hflush.mode.symm.trans hmode)
  show ({ b with faults := faults } : BufferedWrites).flush.2.runs = .empty
  rw [flush_empty (b := { b with faults := faults }) hempty]
  exact hempty

lemma Settled.drain_of {drain : Drain} {faults : List (Option ℕ)} {r : Except Error Unit}
    {b' : BufferedWrites} (hrun : drain.run { b with faults := faults } = (r, b'))
    (hsettled : ({ b' with faults := [] } : BufferedWrites).Settled content)
    (hres : (r = .ok () ∧ (drain.Completes b.mode → b'.runs = .empty)) ∨
      (r = .error .io ∧ faults ≠ [])) :
    (b.drain drain faults).2.Settled content ∧
    (((b.drain drain faults).1 = .ok .unit ∧
        (drain.Completes b.mode → (b.drain drain faults).2.runs = .empty)) ∨
      ((b.drain drain faults).1 = .error .io ∧ faults ≠ [])) := by
  unfold BufferedWrites.drain
  rw [hrun]
  refine ⟨hsettled, ?_⟩
  rcases hres with ⟨rfl, hempty⟩ | ⟨rfl, hne⟩
  · exact .inl ⟨rfl, hempty⟩
  · exact .inr ⟨rfl, hne⟩

/-- A drain keeps the content, and leaves it in the file unless a write fails. -/
lemma Settled.drain_spec (h : b.Settled content) (hcontent : content.length < 2 ^ 64)
    (drain : Drain) (faults : List (Option ℕ)) :
    (b.drain drain faults).2.Settled content ∧
    (((b.drain drain faults).1 = .ok .unit ∧
        (drain.Completes b.mode → (b.drain drain faults).2.runs = .empty)) ∨
      ((b.drain drain faults).1 = .error .io ∧ faults ≠ [])) := by
  obtain ⟨r, b', hflush, hsettled, hres⟩ := h.flush_cases hcontent faults
  have hflushed : drain.run { b with faults := faults } = (r, b') → _ := fun hrun =>
    drain_of hrun hsettled (hres.imp_left fun hok => ⟨hok.1, fun _ => hok.2⟩)
  cases drain with
  | flush => exact hflushed hflush
  | syncData => exact hflushed hflush
  | syncAll => exact hflushed hflush
  | orderingBarrier =>
    have hidle := h.coherent.frame [] b.mode
    cases hmode : b.mode with
    | unbuffered =>
      rw [← hmode]
      exact drain_of (show _ = (.ok (), { b with faults := faults }) by
        simp only [Drain.run, BufferedWrites.orderingBarrier, hmode]) ⟨hidle, rfl, h.unbuffered⟩
        (.inl ⟨rfl, fun _ => h.unbuffered hmode⟩)
    | operation pageSize maxBytes =>
      rw [← hmode]
      apply hflushed
      rw [← hflush]
      simp only [Drain.run, BufferedWrites.orderingBarrier, hmode]
    | session pageSize maxBytes =>
      rw [← hmode]
      exact drain_of (show _ = (.ok (), { b with faults := faults }) by
        simp only [Drain.run, BufferedWrites.orderingBarrier, hmode]) ⟨hidle, rfl, h.unbuffered⟩
        (.inl ⟨rfl, fun hcompletes => absurd hmode (hcompletes pageSize maxBytes)⟩)
  | setWriteBuffering mode =>
    unfold BufferedWrites.drain Drain.run setMode
    rw [hflush]
    rcases hres with ⟨rfl, hempty⟩ | ⟨rfl, hne⟩
    · exact ⟨⟨hsettled.coherent.frame [] mode, rfl, fun _ => hempty⟩, .inl ⟨rfl, fun _ => hempty⟩⟩
    · exact ⟨hsettled, .inr ⟨rfl, hne⟩⟩

end BufferedWrites

/-! ## The image without a mirror -/

namespace HandleImage

variable {image : HandleImage}

/-- The image stands for the content. -/
structure Shows (image : HandleImage) (content : Bytes) : Prop where
  settled : image.writes.Settled content
  len : image.len = content.length
  cache : ∀ {config c}, image.metadataCache = some (config, c) → c.Valid content ∧ c.Indexed
  bound : content.length < 2 ^ 64

lemma shows_new (hdisk : disk.length < 2 ^ 64) (cache : MetadataCacheConfig) :
    (new disk cache).Shows disk := by
  refine ⟨BufferedWrites.settled_new disk, rfl, fun {config c} hcache => ?_, hdisk⟩
  unfold new at hcache
  by_cases henabled : cache.isEnabled
  · simp only [henabled, if_true] at hcache
    cases hcache
    exact ⟨MetadataReadCache.valid_new disk, ⟨nofun, fun ⟨_, h, _⟩ => nomatch h⟩, nofun, rfl⟩
  · simp only [henabled] at hcache
    cases hcache

/-- **A read returns the bytes of the content.** -/
theorem readAt_eq (hcoh : image.writes.Coherent content) (hlen : image.len = content.length)
    (hbound : content.length < 2 ^ 64) (offset n : ℕ) :
    image.readAt offset n = .ok (MirrorImage.bytesIn content offset n) := by
  unfold readAt MirrorImage.bytesIn
  cases hadd : checkedAdd offset n with
  | none => rfl
  | some stop =>
    obtain ⟨-, rfl⟩ := checkedAdd_eq_some.mp hadd
    simp only
    rw [hlen]
    by_cases hend : content.length < offset + n
    · rw [if_pos hend, if_pos hend]
    rw [if_neg hend, if_neg hend]
    set take := max offset (min image.writes.onDiskLen (offset + n)) - offset with htake
    have honDisk := hcoh.onDisk_le
    have hdisk : (if 0 < take then readAtHandle image.writes.disk image.writes.onDiskLen offset
        take else .ok []) = .ok (slice image.writes.disk offset take) := by
      by_cases hpos : 0 < take
      · unfold readAtHandle
        rw [if_pos hpos, checkedAdd_of_lt (by omega)]
        simp only
        rw [if_neg (by omega), if_neg (by omega)]
      · rw [if_neg hpos, Nat.eq_zero_of_not_pos hpos, slice_zero]
    rw [hdisk]
    simp only
    have hcovers : (decide (offset + n ≤ max offset (min image.writes.onDiskLen (offset + n))) ||
        image.writes.covers (max offset (min image.writes.onDiskLen (offset + n)))
          (offset + n)) = true := by
      by_cases hreach : offset + n ≤ image.writes.onDiskLen
      · rw [decide_eq_true (by omega), Bool.true_or]
      · rw [hcoh.covers (by omega) (by omega), Bool.or_true]
    rw [Checked.assert_of hcovers, Checked.ok_bind]
    have hslice : (slice image.writes.disk offset take).length = take := by
      by_cases hpos : 0 < take
      · exact length_slice (by omega)
      · rw [Nat.eq_zero_of_not_pos hpos, slice_zero]
        rfl
    have hbuf : (slice image.writes.disk offset take ++ replicate (n - take) 0).length = n := by
      rw [length_append, hslice, length_replicate]
      omega
    rw [hcoh.overlay_eq (by omega), hbuf]
    intro i hi hlow
    rw [getElem?_append_left (by omega), getElem?_slice, if_pos (by omega)]

lemma Shows.readAt_eq (h : image.Shows content) (offset n : ℕ) :
    image.readAt offset n = .ok (MirrorImage.bytesIn content offset n) :=
  HandleImage.readAt_eq h.settled.coherent h.len h.bound offset n

lemma Shows.readExactAt_eq (h : image.Shows content) (offset n : ℕ) :
    image.readExactAt offset n = .ok (MirrorImage.bytesIn content offset n) := by
  unfold readExactAt
  rw [h.readAt_eq, h.len]
  unfold MirrorImage.bytesIn
  cases checkedAdd offset n with
  | none => rfl
  | some stop =>
    simp only
    split_ifs <;> rfl

lemma bytesIn_eq_ok : MirrorImage.bytesIn content offset n = .ok bytes ↔
    offset + n < 2 ^ 64 ∧ offset + n ≤ content.length ∧ slice content offset n = bytes := by
  unfold MirrorImage.bytesIn checkedAdd
  by_cases hlt : offset + n < 2 ^ 64
  · rw [if_pos hlt]
    rw [ite_error_eq_ok, not_lt, Except.ok.injEq, and_iff_right hlt]
  · rw [if_neg hlt]
    exact ⟨nofun, fun h => absurd h.1 hlt⟩

section

variable (h : image.Shows content)

include h

/-- A metadata read returns the bytes of the content, from the cache or from the file. -/
lemma Shows.readMetadata_eq (capacity : ℕ → ℕ) (offset len : ℕ) :
    ∃ r image', image.readMetadata capacity offset len = .ok (r, image') ∧
      r.map MetadataBytes.bytes = MirrorImage.bytesIn content offset len ∧
      image'.Shows content := by
  set read := (MirrorImage.bytesIn content offset len).bind fun bytes =>
    fromVec capacity offset bytes with hread
  have hok : ∀ {bytes}, MirrorImage.bytesIn content offset len = .ok bytes →
      read = .ok ⟨bytes, some (capacity bytes.length)⟩ := by
    intro bytes hbytes
    obtain ⟨hlt, hle, rfl⟩ := bytesIn_eq_ok.mp hbytes
    rw [hread, hbytes]
    show fromVec capacity offset (slice content offset len) = _
    unfold fromVec
    rw [length_slice hle, checkedAdd_of_lt hlt]
  have hmap : read.map MetadataBytes.bytes = MirrorImage.bytesIn content offset len := by
    cases hbytes : MirrorImage.bytesIn content offset len with
    | error e =>
      rw [hread, hbytes]
      rfl
    | ok bytes =>
      rw [hok hbytes]
      rfl
  unfold readMetadata
  rw [h.readExactAt_eq, Checked.ok_bind]
  cases hcache : image.metadataCache with
  | none => exact ⟨read, image, rfl, hmap, h⟩
  | some entry =>
    obtain ⟨config, cache⟩ := entry
    obtain ⟨hvalid, hidx⟩ := h.cache hcache
    obtain ⟨hbytes, hvalid', hindexed'⟩ := MetadataReadCache.readThrough_spec hvalid hidx config
      offset len read (by
        intro m hm
        cases hb : MirrorImage.bytesIn content offset len with
        | error e =>
          rw [hread, hb] at hm
          cases hm
        | ok bytes =>
          rw [hok hb] at hm
          cases hm
          obtain ⟨-, hle, rfl⟩ := bytesIn_eq_ok.mp hb
          exact ⟨rfl, hle⟩) (by
        intro e he hle
        rw [hok (bytesIn_eq_ok.mpr ⟨hle.trans_lt h.bound, hle, rfl⟩)] at he
        cases he)
    refine ⟨_, _, rfl, hbytes.trans hmap, h.settled, h.len, fun hcache' => ?_, h.bound⟩
    cases hcache'
    exact ⟨hvalid', hindexed'⟩

/-! ### Writes -/

/-- After its invalidation a range may be overwritten. -/
lemma Shows.invalidate_cache (hoff : offset ≤ content.length)
    (hbound : offset + bytes.length < 2 ^ 64) {config : MetadataCacheConfig}
    {c : MetadataReadCache}
    (hcache : (image.invalidate offset bytes.length).metadataCache = some (config, c)) :
    c.Valid (patch content offset bytes) ∧ c.Indexed := by
  unfold invalidate at hcache
  cases hold : image.metadataCache with
  | none =>
    rw [hold] at hcache
    cases hcache
  | some entry =>
    rw [hold] at hcache
    cases hcache
    obtain ⟨hvalid, hidx⟩ := h.cache hold
    obtain ⟨hindexed', hwithin, hclear⟩ := MetadataReadCache.invalidateOverlapping_spec hidx
      hvalid h.bound offset bytes.length hbound
    refine ⟨?_, hindexed'⟩
    by_cases hempty : bytes = []
    · rw [hempty, patch_nil]
      rw [hempty] at hwithin
      exact hwithin.valid hvalid
    · have hlen := length_patch hoff bytes
      refine (hwithin.valid hvalid).of_invalidated
        (fun hk => hclear hk (length_pos_iff.mpr hempty)) (fun a ha _ => by omega) ?_
      intro a hout _
      rw [getElem?_patch hoff, if_neg hout]

/-- An image whose range is invalidated and whose writes are patched shows the patched content. -/
lemma Shows.written (hoff : offset ≤ content.length)
    (hbound : (patch content offset bytes).length < 2 ^ 64) {writes : BufferedWrites}
    (hsettled : writes.Settled (patch content offset bytes))
    (hlen : len = (patch content offset bytes).length) :
    Shows { image.invalidate offset bytes.length with writes := writes, len := len }
      (patch content offset bytes) := by
  have hpatch := length_patch hoff bytes
  exact ⟨hsettled, hlen, fun hcache => h.invalidate_cache hoff (by omega) hcache, hbound⟩

lemma Shows.append_eq (hbound : content.length + bytes.length < 2 ^ 64) :
    ∃ image', image.append bytes = .ok (.ok content.length, image') ∧
      image'.Shows (content ++ bytes) := by
  have hpatch : patch content content.length bytes = content ++ bytes := patch_end content bytes
  have hlen : (patch content content.length bytes).length = content.length + bytes.length := by
    rw [hpatch, length_append]
  obtain ⟨writes, hwrite, hsettled⟩ := h.settled.writeAt_eq le_rfl bytes (by omega)
  unfold append
  simp only [invalidate, h.len, hwrite, checkedAdd_of_lt hbound, Checked.expect_some,
    Checked.ok_bind]
  rw [← hpatch]
  exact ⟨_, rfl, h.written le_rfl (by omega) hsettled hlen.symm⟩

lemma Shows.writeAt_eq (hoff : offset + bytes.length ≤ content.length) :
    ∃ image', image.writeAt offset bytes = (.ok (), image') ∧
      image'.Shows (patch content offset bytes) := by
  have hbound := h.bound
  have hlen : (patch content offset bytes).length = content.length := by
    rw [length_patch (by omega)]
    omega
  obtain ⟨writes, hwrite, hsettled⟩ := h.settled.writeAt_eq
    (show offset ≤ content.length by omega) bytes (by omega)
  unfold writeAt
  simp only [checkedAdd_of_lt (hoff.trans_lt hbound)]
  rw [h.len, if_neg (by omega)]
  simp only [invalidate, hwrite]
  exact ⟨_, rfl, h.written (by omega) (by omega) hsettled (h.len.trans hlen.symm)⟩

lemma Shows.writeZeros_eq {bypass : Bool} (hbypass : bypass = true → image.writes.runs = .empty)
    (hbatch : ZeroBatch append offset bytes.length content.length) :
    ∃ image', writeZeros append bypass offset bytes image = .ok (.ok (), image') ∧
      image'.Shows (patch content offset bytes) ∧
      (bypass = true → image'.writes.runs = .empty) := by
  have hbound := h.bound
  unfold ZeroBatch at hbatch
  have hoff : offset ≤ content.length := by omega
  have hlen := length_patch hoff bytes
  obtain ⟨writes, hwrite, hsettled, hruns⟩ :=
    h.settled.writeZeroChunk_eq hoff bytes (by omega) hbypass
  unfold writeZeros
  simp only [invalidate, hwrite]
  rcases hbatch with ⟨rfl, rfl, hfits⟩ | ⟨rfl, hin⟩
  · simp only [if_true, h.len, checkedAdd_of_lt hfits, Checked.expect_some, Checked.ok_bind]
    exact ⟨_, rfl, h.written hoff (by omega) hsettled (by omega), hruns⟩
  · exact ⟨_, rfl, h.written hoff (by omega) hsettled (by rw [h.len]; omega), hruns⟩

lemma Shows.fillZeros_eq (hbound : start + length < 2 ^ 64)
    (happends : appends start length content.length = .ok append) :
    ∃ image', image.fillZeros start length = .ok (.ok (), image') ∧
      image'.Shows (patch content start (replicate length 0)) := by
  obtain ⟨bypass, writes, hbegin, hsettled, hruns⟩ :=
    h.settled.beginZeroRange_eq h.bound length
  have hshows : Shows { image with writes := writes, len := content.length } content :=
    ⟨hsettled, rfl, h.cache, h.bound⟩
  unfold fillZeros
  simp only [h.len, happends, hbegin]
  exact emit_zeros (P := fun content (image : HandleImage) => image.Shows content)
   
    (fun h hidle => h.writeZeros_eq hidle) hbound happends hshows hruns

lemma Shows.fillZeros_error {e : Error}
    (happends : appends start length content.length = .error e) :
    image.fillZeros start length = .ok (.error e, image) := by
  rw [← h.len] at happends
  unfold fillZeros
  simp only [happends]

lemma Shows.truncate_eq (hlen : len ≤ content.length) :
    ∃ image', image.truncate len = .ok (.ok (), image') ∧ image'.Shows (content.take len) := by
  have hbound := h.bound
  have htake : (content.take len).length = len := by
    rw [length_take]
    omega
  obtain ⟨writes, hset, hsettled⟩ := h.settled.setLen_eq h.bound hlen
  unfold truncate
  dsimp only
  rw [Checked.assert_of (decide_eq_true (by rw [h.len]; exact hlen)), Checked.ok_bind]
  simp only [invalidate, hset]
  refine ⟨_, rfl, hsettled, htake.symm, fun {config c} hcache => ?_, by omega⟩
  cases hold : image.metadataCache with
  | none =>
    simp only [hold] at hcache
    cases hcache
  | some entry =>
    simp only [hold, Option.map_some] at hcache
    cases hcache
    obtain ⟨hvalid, hidx⟩ := h.cache hold
    obtain ⟨hindexed', hwithin, hclear⟩ := MetadataReadCache.invalidateOverlapping_spec hidx
      hvalid h.bound len (image.len - len) (by rw [h.len]; omega)
    refine ⟨?_, hindexed'⟩
    by_cases hsame : len = content.length
    · rw [hsame, take_length]
      rw [hsame] at hwithin
      exact hwithin.valid hvalid
    apply (hwithin.valid hvalid).of_invalidated (fun hk => hclear hk (by rw [h.len]; omega))
    · intro a ha hout
      rw [h.len] at hout
      omega
    · intro a hout ha
      rw [h.len] at hout
      exact getElem?_take_of_lt (by omega)

end

end HandleImage

/-! ## The image with a mirror -/

namespace MirrorImage

variable {image : MirrorImage}

/-- The image stands for the content. -/
structure Shows (image : MirrorImage) (content : Bytes) : Prop where
  settled : image.writes.Settled content
  data : image.data = content
  bound : content.length < 2 ^ 64

lemma shows_new (hdisk : disk.length < 2 ^ 64) : (new disk).Shows disk :=
  ⟨BufferedWrites.settled_new disk, rfl, hdisk⟩

lemma copyInto_eq (h : offset + bytes.length ≤ content.length) :
    copyInto content offset bytes = .ok (patch content offset bytes) := by
  rw [copyInto, if_pos h]

section

variable (h : image.Shows content)

include h

lemma Shows.readAt_eq (offset n : ℕ) : image.readAt offset n = bytesIn content offset n := by
  unfold readAt
  rw [h.data]

lemma Shows.readExactAt_eq (offset n : ℕ) :
    image.readExactAt offset n = bytesIn content offset n := by
  unfold readExactAt readAt bytesIn
  rw [h.data]
  cases checkedAdd offset n with
  | none => rfl
  | some stop =>
    simp only
    split_ifs <;> rfl

lemma Shows.readMetadata_eq (offset len : ℕ) :
    (image.readMetadata offset len).map MetadataBytes.bytes = bytesIn content offset len := by
  unfold readMetadata
  rw [h.data]
  cases bytesIn content offset len with
  | error e => rfl
  | ok bytes => rfl

lemma Shows.append_eq (hbound : content.length + bytes.length < 2 ^ 64) :
    ∃ image', image.append bytes = (.ok content.length, image') ∧
      image'.Shows (content ++ bytes) := by
  have hpatch : patch content content.length bytes = content ++ bytes := patch_end content bytes
  have hlen : (content ++ bytes).length < 2 ^ 64 := by
    rw [length_append]
    exact hbound
  obtain ⟨writes, hwrite, hsettled⟩ :=
    h.settled.writeAt_eq le_rfl bytes (by rw [hpatch]; exact hlen)
  rw [hpatch] at hsettled
  unfold append
  simp only [h.data, hwrite]
  exact ⟨_, rfl, hsettled, rfl, hlen⟩

lemma Shows.writeAt_eq (hoff : offset + bytes.length ≤ content.length) :
    ∃ image', image.writeAt offset bytes = .ok (.ok (), image') ∧
      image'.Shows (patch content offset bytes) := by
  have hbound := h.bound
  have hlen : (patch content offset bytes).length = content.length := by
    rw [length_patch (by omega)]
    omega
  obtain ⟨writes, hwrite, hsettled⟩ := h.settled.writeAt_eq
    (show offset ≤ content.length by omega) bytes (by omega)
  have hassert : saturatingAdd offset bytes.length ≤ image.data.length := by
    rw [h.data]
    exact (min_le_left _ _).trans hoff
  unfold writeAt
  dsimp only
  rw [Checked.assert_of (decide_eq_true hassert), Checked.ok_bind]
  simp only [hwrite, h.data, copyInto_eq hoff, Checked.ok_bind]
  exact ⟨_, rfl, hsettled, rfl, by omega⟩

lemma Shows.writeZeros_eq {bypass : Bool} (hbypass : bypass = true → image.writes.runs = .empty)
    (hbatch : ZeroBatch append offset bytes.length content.length) :
    ∃ image', writeZeros append bypass offset bytes image = .ok (.ok (), image') ∧
      image'.Shows (patch content offset bytes) ∧
      (bypass = true → image'.writes.runs = .empty) := by
  have hbound := h.bound
  unfold ZeroBatch at hbatch
  have hoff : offset ≤ content.length := by omega
  have hlen := length_patch hoff bytes
  obtain ⟨writes, hwrite, hsettled, hruns⟩ :=
    h.settled.writeZeroChunk_eq hoff bytes (by omega) hbypass
  unfold writeZeros
  simp only [hwrite, h.data]
  rcases hbatch with ⟨rfl, rfl, hfits⟩ | ⟨rfl, hin⟩
  · exact ⟨_, rfl, ⟨hsettled, (patch_end content bytes).symm, by omega⟩, hruns⟩
  · simp only [copyInto_eq hin, Checked.ok_bind]
    exact ⟨_, rfl, ⟨hsettled, rfl, by omega⟩, hruns⟩

lemma Shows.fillZeros_eq (hbound : start + length < 2 ^ 64)
    (happends : appends start length content.length = .ok append) :
    ∃ image', image.fillZeros start length = .ok (.ok (), image') ∧
      image'.Shows (patch content start (replicate length 0)) := by
  obtain ⟨bypass, writes, hbegin, hsettled, hruns⟩ :=
    h.settled.beginZeroRange_eq h.bound length
  have hshows : Shows ⟨writes, content⟩ content := ⟨hsettled, rfl, h.bound⟩
  unfold fillZeros
  simp only [h.data, happends, hbegin]
  exact emit_zeros (P := fun content (image : MirrorImage) => image.Shows content)
   
    (fun h hidle => h.writeZeros_eq hidle) hbound happends hshows hruns

lemma Shows.fillZeros_error {e : Error}
    (happends : appends start length content.length = .error e) :
    image.fillZeros start length = .ok (.error e, image) := by
  unfold fillZeros
  simp only [h.data, happends]

lemma Shows.truncate_eq (hlen : len ≤ content.length) :
    ∃ image', image.truncate len = .ok (.ok (), image') ∧ image'.Shows (content.take len) := by
  have hbound := h.bound
  have htake : (content.take len).length < 2 ^ 64 := by
    rw [length_take]
    omega
  obtain ⟨writes, hset, hsettled⟩ := h.settled.setLen_eq h.bound hlen
  unfold truncate
  dsimp only
  rw [Checked.assert_of (decide_eq_true (by rw [h.data]; exact hlen)), Checked.ok_bind]
  simp only [hset, h.data]
  exact ⟨_, rfl, hsettled, rfl, htake⟩

end

end MirrorImage

end Hdf5Pure.Image
