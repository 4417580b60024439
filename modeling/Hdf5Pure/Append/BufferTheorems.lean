import Hdf5Pure.Append.Buffer

/-!
# Properties of buffered appenders

A write moves elements from the front of the buffer to the dataset, so the published bytes followed
by the pending ones stay the same. What one call does follows, and then what a history of calls does.
-/

namespace Hdf5Pure.Append

open List

open Edit (Error)

variable {ε δ : Type} {engine : AppendEngine ε δ}

/-! ## Engines -/

namespace AppendEngine

lemma Keeps.trans {e e' e'' : ε} (h : engine.Keeps e e') (h' : engine.Keeps e' e'') :
    engine.Keeps e e'' :=
  ⟨h'.1.trans h.1, h'.2.1.trans h.2.1, h'.2.2.trans h.2.2⟩

lemma Keeps.refl (e : ε) : engine.Keeps e e := ⟨rfl, rfl, rfl⟩

end AppendEngine

/-! ## Writes -/

/-- `k` elements went from the front of the buffer to the dataset. -/
structure Moved (engine : AppendEngine ε δ) (s : BufferState δ) (e : ε) (k : ℕ) (s' : BufferState δ)
    (e' : ε) : Prop where
  published : engine.published e' = engine.published e ++ s.unwritten.take (k * s.elementSize)
  unwritten : s'.unwritten = s.unwritten.drop (k * s.elementSize)
  length : engine.length e' = engine.length e + k
  fits : k * s.elementSize ≤ s.unwritten.length
  chunkElems : s'.chunkElems = s.chunkElems
  elementSize : s'.elementSize = s.elementSize
  maximum : s'.maximum = s.maximum
  error : s'.pending.error = s.pending.error

/-- What a write can do. -/
inductive Wrote (engine : AppendEngine ε δ) (s : BufferState δ) (e : ε) (take : ℕ) :
    Except Error Unit → BufferState δ → ε → Prop
  /-- It was not attempted. -/
  | rejected (error : Error) (e' : ε) (h : engine.Keeps e e') : Wrote engine s e take (.error error) s e'
  | completed (s' : BufferState δ) (e' : ε) (h : Moved engine s e take s' e')
      (hlife : s'.lifecycle = s.lifecycle) (hfailed : engine.failed e' = engine.failed e) :
      Wrote engine s e take (.ok ()) s' e'
  | failed (error : Error) (k : ℕ) (s' : BufferState δ) (e' : ε) (hk : k ≤ take)
      (h : Moved engine s e k s' e') (hlife : s'.lifecycle = .poisoned)
      (hfailed : engine.failed e' = true) : Wrote engine s e take (.error error) s' e'

namespace Moved

variable {s s' : BufferState δ} {e e' : ε} {k : ℕ}

/-- Nothing is lost, repeated or reordered. -/
lemma conserves (h : Moved engine s e k s' e') :
    engine.published e' ++ s'.unwritten = engine.published e ++ s.unwritten := by
  rw [h.published, h.unwritten, append_assoc, take_append_drop]

lemma length_unwritten (h : Moved engine s e k s' e') :
    s'.unwritten.length + k * s.elementSize = s.unwritten.length := by
  rw [h.unwritten, length_drop]
  exact Nat.sub_add_cancel h.fits

end Moved

variable {s s' : BufferState δ}

variable {take : ℕ} {r : Except Error Unit}

/-- Queries before a write do not matter. -/
lemma Wrote.of_keeps {e e₁ e' : ε} (h : Wrote engine s e₁ take r s' e')
    (hkeeps : engine.Keeps e e₁) :
    Wrote engine s e take r s' e' := by
  have moved : ∀ {k : ℕ}, Moved engine s e₁ k s' e' → Moved engine s e k s' e' := by
    intro k hm
    have hpub := hm.published
    have hlen := hm.length
    rw [hkeeps.1] at hpub
    rw [hkeeps.2.1] at hlen
    exact { hm with published := hpub, length := hlen }
  cases h with
  | rejected error _ h => exact .rejected error _ (hkeeps.trans h)
  | completed _ _ h hlife hfailed => exact .completed _ _ (moved h) hlife (hfailed.trans hkeeps.2.2)
  | failed error k _ _ hk h hlife hfailed => exact .failed error k _ _ hk (moved h) hlife hfailed

namespace BufferState

variable {s : BufferState δ} {e : ε}

lemma byteLen_of_le {a b bytes : ℕ} (h : s.byteLen b = .ok bytes) (hab : a ≤ b) :
    s.byteLen a = .ok (a * s.elementSize) := by
  unfold byteLen at h ⊢
  cases hb : checkedMul b s.elementSize with
  | none => rw [hb] at h; cases h
  | some c =>
    have hlt := (checkedMul_eq_some.mp hb).1
    have hle : a * s.elementSize ≤ b * s.elementSize := Nat.mul_le_mul_right _ hab
    rw [checkedMul_eq_some.mpr ⟨by omega, rfl⟩]

/-- What the engine landed is what the buffer drops. -/
lemma dropLanded_moved {e' : ε} {k : ℕ} (hlen : s.byteLen k = .ok (k * s.elementSize))
    (hfits : k * s.elementSize ≤ s.unwritten.length)
    (hpub : engine.published e' = engine.published e ++ s.unwritten.take (k * s.elementSize))
    (hlength : engine.length e' = engine.length e + k) (lifecycle : Lifecycle)
    (result : Except Error Unit) :
    ∃ s', { s with lifecycle := lifecycle }.dropLanded k result = (result, s') ∧
      Moved engine s e k s' e' ∧ s'.lifecycle = lifecycle := by
  have hlen' : { s with lifecycle := lifecycle }.byteLen k = .ok (k * s.elementSize) := hlen
  refine ⟨{ s with
    pending := s.pending.dropFront (k * s.elementSize)
    lifecycle := lifecycle }, ?_, ⟨hpub, ?_, hlength, hfits, rfl, rfl, rfl, rfl⟩, rfl⟩
  · rw [dropLanded, hlen']
  · show s.unwritten.drop (min _ s.unwritten.length) = _
    rw [min_eq_left hfits]

/-- The elements that a write hands to the engine land from their front. -/
lemma appendPrebuilt_lands (hengine : engine.Lawful) (hsize : s.elementSize = engine.elementSize)
    (hfits : take * s.elementSize ≤ s.unwritten.length) {e' : ε}
    (ha : engine.appendPrebuilt e (s.pending.head (take * s.elementSize)) = (r, e')) :
    ∃ k ≤ take, engine.published e' = engine.published e ++ s.unwritten.take (k * s.elementSize) ∧
      engine.length e' = engine.length e + k ∧ (r = .ok () → k = take) := by
  have hhead : (s.pending.head (take * s.elementSize)).raw =
      s.unwritten.take (take * s.elementSize) := by
    show s.unwritten.take (min _ s.unwritten.length) = _
    rw [min_eq_left hfits]
  have hheadLen : (s.pending.head (take * s.elementSize)).raw.length =
      take * engine.elementSize := by
    rw [hhead, length_take, min_eq_left hfits, hsize]
  obtain ⟨k, hk, hpub, hlen, hall⟩ := hengine.append_lands e _ take hheadLen
  rw [ha] at hpub hlen hall
  refine ⟨k, hk, ?_, hlen, hall⟩
  rw [hpub, hhead, ← hsize, take_take, min_eq_left (Nat.mul_le_mul_right _ hk)]

/-- **A write.** -/
theorem writePrefix_spec (hengine : engine.Lawful) (hsize : s.elementSize = engine.elementSize)
    (htake : take ≤ s.bufferedElements) :
    Wrote engine s e take (s.writePrefix engine e take).1 (s.writePrefix engine e take).2.1
      (s.writePrefix engine e take).2.2 := by
  have hfits : ∀ k ≤ take, k * s.elementSize ≤ s.unwritten.length := by
    intro k hk
    exact (Nat.mul_le_mul_right _ (hk.trans htake)).trans (Nat.div_mul_le_self _ _)
  have hkeeps := hengine.geometry_keeps e
  have hreports := hengine.geometry_reports e
  unfold writePrefix
  rcases hg : engine.geometry e with ⟨_ | geometry, e₁⟩ <;> rw [hg] at hkeeps hreports
  · exact .rejected _ _ hkeeps
  cases hbytes : s.byteLen take with
  | error error => exact .rejected _ _ hkeeps
  | ok bytes =>
    have hlen : ∀ k ≤ take, s.byteLen k = .ok (k * s.elementSize) :=
      fun k hk => byteLen_of_le hbytes hk
    obtain rfl : take * s.elementSize = bytes :=
      Except.ok.inj ((hlen take le_rfl).symm.trans hbytes)
    dsimp only
    rcases ha : engine.appendPrebuilt e₁ (s.pending.head (take * s.elementSize)) with ⟨r, e₂⟩
    obtain ⟨k, hk, hpub, hlength, hall⟩ :=
      appendPrebuilt_lands hengine hsize (hfits take le_rfl) ha
    rw [hkeeps.1] at hpub
    rw [hkeeps.2.1] at hlength
    cases r with
    | ok =>
      have hok := hengine.append_ok e₁ (s.pending.head (take * s.elementSize))
      rw [ha] at hok
      obtain rfl : k = take := hall rfl
      obtain ⟨s', hs', hmoved, hlife⟩ :=
        dropLanded_moved (hlen k hk) (hfits k hk) hpub hlength s.lifecycle (.ok ())
      simp only [hs']
      exact .completed s' e₂ hmoved hlife ((hok rfl).trans hkeeps.2.2)
    | error error =>
      have herr := hengine.append_error e₁ (s.pending.head (take * s.elementSize)) error
      rw [ha] at herr
      obtain ⟨hfailed, g, hread⟩ := herr rfl
      have hkeeps₂ := hengine.geometry_keeps e₂
      have hreports₂ := hengine.geometry_reports e₂ g hread
      rcases hg₂ : engine.geometry e₂ with ⟨r₂, e₃⟩
      rw [hg₂] at hkeeps₂ hread
      obtain rfl : r₂ = .ok g := hread
      -- the growth of the reported length is what landed
      have hgrowth : min (g.currentDim - geometry.currentDim) take = k := by
        have h₁ := (hreports geometry rfl).1
        omega
      rw [← hkeeps₂.1] at hpub
      rw [← hkeeps₂.2.1] at hlength
      obtain ⟨s', hs', hmoved, hlife⟩ :=
        dropLanded_moved (hlen k hk) (hfits k hk) hpub hlength .poisoned (.error error)
      simp only [hg₂, hgrowth, hs']
      exact .failed error k s' e₃ hk hmoved hlife (hkeeps₂.2.2.trans hfailed)

lemma boundary_spec {chunk avail : ℕ} (current : ℕ) (hchunk : 0 < chunk) (h : chunk ≤ avail) :
    let toBoundary := (chunk - current % chunk) % chunk
    let take := toBoundary + (avail - toBoundary) / chunk * chunk
    (toBoundary < chunk ∧ toBoundary ≤ avail) ∧ (1 ≤ take ∧ take ≤ avail) ∧
      chunk ∣ current + take ∧ avail - take < chunk := by
  intro toBoundary take
  have hlt : toBoundary < chunk := Nat.mod_lt _ hchunk
  have hdiv := Nat.div_add_mod (avail - toBoundary) chunk
  rw [Nat.mul_comm] at hdiv
  have hmod : (avail - toBoundary) % chunk < chunk := Nat.mod_lt _ hchunk
  refine ⟨⟨hlt, by omega⟩, ⟨?_, by omega⟩, ?_, by omega⟩
  · -- fewer than `chunk` elements stay behind, and at least `chunk` were there
    by_contra hzero
    omega
  · have hcurrent : chunk ∣ current + toBoundary := by
      have hpart : current % chunk < chunk := Nat.mod_lt _ hchunk
      have hsplit := Nat.div_add_mod current chunk
      rcases Nat.eq_zero_or_pos (current % chunk) with hzero | hpos
      · have hto : toBoundary = 0 := by
          show (chunk - current % chunk) % chunk = 0
          rw [hzero, Nat.sub_zero, Nat.mod_self]
        rw [hto]
        exact Nat.dvd_of_mod_eq_zero hzero
      · have hto : toBoundary = chunk - current % chunk := Nat.mod_eq_of_lt (by omega)
        exact ⟨current / chunk + 1, by rw [Nat.mul_add, Nat.mul_one]; omega⟩
    rw [← Nat.add_assoc]
    exact (Nat.dvd_add_right hcurrent).mpr (Nat.dvd_mul_left _ _)

/-- **An automatic write.** Nothing is written below one chunk. -/
theorem writeCompleteChunks_spec (hengine : engine.Lawful)
    (hsize : s.elementSize = engine.elementSize) :
    ∃ r s' e', s.writeCompleteChunks engine e = .ok (r, s', e') ∧
      ((r = .ok () ∧ s' = s ∧ e' = e ∧ s.bufferedElements < s.chunkElems) ∨
        ∃ take, Wrote engine s e take r s' e' ∧ take ≤ s.bufferedElements ∧
          s.chunkElems ∣ engine.length e + take ∧ s.bufferedElements - take < s.chunkElems) := by
  unfold writeCompleteChunks
  by_cases havail : s.bufferedElements < s.chunkElems
  · rw [if_pos havail]
    exact ⟨_, _, _, rfl, .inl ⟨rfl, rfl, rfl, havail⟩⟩
  rw [if_neg havail]
  have hkeeps := hengine.geometry_keeps e
  have hreports := hengine.geometry_reports e
  obtain ⟨-, ⟨-, hle⟩, hdvd, hrest⟩ :=
    boundary_spec (engine.length e) s.chunkElems_pos (not_lt.mp havail)
  rcases hg : engine.geometry e with ⟨_ | geometry, e₁⟩ <;> rw [hg] at hkeeps hreports
  · exact ⟨_, _, _, rfl, .inr ⟨_, .rejected _ _ hkeeps, hle, hdvd, hrest⟩⟩
  dsimp only
  have hdim : geometry.currentDim = engine.length e := (hreports geometry rfl).1
  obtain ⟨hto, htake, -, -⟩ :=
    boundary_spec geometry.currentDim s.chunkElems_pos (not_lt.mp havail)
  rw [Checked.assert_of (decide_eq_true hto), Checked.ok_bind,
    Checked.assert_of (decide_eq_true htake), Checked.ok_bind, hdim]
  refine ⟨_, _, _, rfl, .inr ⟨_, ?_, hle, hdvd, hrest⟩⟩
  exact (writePrefix_spec hengine hsize hle).of_keeps hkeeps

end BufferState

/-! ## Settling -/

def WithinMaximum (engine : AppendEngine ε δ) (s : BufferState δ) (e : ε) : Prop :=
  ∀ m, s.maximum = .fixed m →
    engine.length e * s.elementSize + s.unwritten.length ≤ m * s.elementSize

/-- What settling new input can do. -/
inductive Settled (engine : AppendEngine ε δ) (s : BufferState δ) (e : ε) (mark : ℕ) :
    Except Error Unit → BufferState δ → ε → Prop
  | rejected (error : Error) (e' : ε) (h : engine.Keeps e e') :
      Settled engine s e mark (.error error) { s with pending := s.pending.truncate mark } e'
  | buffered (e' : ε) (h : engine.Keeps e e') (hmax : WithinMaximum engine s e)
      (hshort : s.bufferedElements < s.chunkElems) : Settled engine s e mark (.ok ()) s e'
  | wrote (take : ℕ) (s' : BufferState δ) (e' : ε) (hmax : WithinMaximum engine s e)
      (h : Moved engine s e take s' e') (hlife : s'.lifecycle = s.lifecycle)
      (hfailed : engine.failed e' = engine.failed e)
      (hboundary : s.chunkElems ∣ engine.length e')
      (hshort : s.bufferedElements - take < s.chunkElems) : Settled engine s e mark (.ok ()) s' e'
  | failed (error : Error) (k : ℕ) (s' : BufferState δ) (e' : ε) (hmax : WithinMaximum engine s e)
      (h : Moved engine s e k s' e') (hlife : s'.lifecycle = .poisoned)
      (hfailed : engine.failed e' = true) : Settled engine s e mark (.error error) s' e'

namespace BufferState

variable {s : BufferState δ} {e : ε}

lemma length_lt_of_bufferedElements (hpos : 0 < s.elementSize) :
    s.unwritten.length < (s.bufferedElements + 1) * s.elementSize := by
  rw [Nat.add_mul, Nat.one_mul, Nat.mul_comm]
  exact Nat.lt_mul_div_succ _ hpos

/-- Input that passes the check fits the maximum. -/
lemma checkMaximum_spec (hengine : engine.Lawful) (hsize : s.elementSize = engine.elementSize) :
    engine.Keeps e (s.checkMaximum engine e).2 ∧
      ((s.checkMaximum engine e).1 = .ok () → WithinMaximum engine s e) := by
  have hpos : 0 < s.elementSize := hsize ▸ hengine.elementSize_pos
  unfold checkMaximum
  cases hmaximum : s.maximum with
  | unlimited =>
    refine ⟨.refl e, fun _ m hm => ?_⟩
    rw [hmaximum] at hm
    cases hm
  | fixed maximum =>
    have hkeeps := hengine.geometry_keeps e
    have hreports := hengine.geometry_reports e
    rcases hg : engine.geometry e with ⟨_ | geometry, e₁⟩ <;> rw [hg] at hkeeps hreports
    · exact ⟨hkeeps, nofun⟩
    dsimp only
    have hdim := (hreports geometry rfl).1
    cases hremaining : checkedSub maximum geometry.currentDim with
    | none => exact ⟨hkeeps, nofun⟩
    | some remaining =>
      dsimp only
      obtain ⟨hle, hsub⟩ := checkedSub_eq_some.mp hremaining
      by_cases hover : remaining < s.bufferedElements ∨
          (s.bufferedElements = remaining ∧ s.pending.raw.length % s.elementSize ≠ 0)
      · rw [if_pos hover]
        exact ⟨hkeeps, nofun⟩
      rw [if_neg hover]
      refine ⟨hkeeps, fun _ m hm => ?_⟩
      obtain rfl : maximum = m := MaxExtent.fixed.inj (hmaximum.symm.trans hm)
      -- the pending bytes take at most `remaining` elements, a started one included
      have hfits : s.unwritten.length ≤ remaining * s.elementSize := by
        have hlt := length_lt_of_bufferedElements hpos
        rcases Nat.lt_or_ge s.bufferedElements remaining with hless | hmore
        · exact hlt.le.trans (Nat.mul_le_mul_right _ hless)
        have heq : s.bufferedElements = remaining := by omega
        have hwhole : s.pending.raw.length % s.elementSize = 0 := by
          by_contra hpart
          exact hover (.inr ⟨heq, hpart⟩)
        rw [← heq]
        exact (Nat.div_mul_cancel (Nat.dvd_of_mod_eq_zero hwhole)).ge
      have hsplit : maximum * s.elementSize =
          engine.length e * s.elementSize + remaining * s.elementSize := by
        rw [← Nat.add_mul, ← hdim]
        congr 1
        omega
      omega

/-- **Settling.** -/
theorem settle_spec (hengine : engine.Lawful) (hsize : s.elementSize = engine.elementSize)
    (hactive : s.lifecycle = .active) (mark : ℕ) :
    ∃ r s' e', s.settle engine e mark = .ok (r, s', e') ∧ Settled engine s e mark r s' e' := by
  obtain ⟨hkeeps, hmax⟩ := checkMaximum_spec hengine hsize
  unfold settle
  rcases hcheck : s.checkMaximum engine e with ⟨_ | _, e₁⟩ <;> rw [hcheck] at hkeeps hmax
  · dsimp only
    exact ⟨_, _, _, if_pos hactive, .rejected _ _ hkeeps⟩
  dsimp only
  replace hmax := hmax rfl
  obtain ⟨r, s', e', hwrite, hcases⟩ := writeCompleteChunks_spec hengine hsize
  rw [hwrite, Checked.ok_bind]
  rcases hcases with ⟨rfl, rfl, rfl, hshort⟩ | ⟨take, hwrote, htake, hdvd, hrest⟩
  · exact ⟨_, _, _, rfl, .buffered _ hkeeps hmax hshort⟩
  rw [hkeeps.2.1] at hdvd
  cases hwrote.of_keeps hkeeps with
  | rejected error _ h => exact ⟨_, _, _, if_pos hactive, .rejected _ _ h⟩
  | completed _ _ h hlife hfailed =>
    exact ⟨_, _, _, rfl, .wrote take _ _ hmax h hlife hfailed (h.length ▸ hdvd) hrest⟩
  | failed error k _ _ hk h hlife hfailed =>
    refine ⟨_, _, _, if_neg ?_, .failed error k _ _ hmax h hlife hfailed⟩
    rw [hlife]
    decide

/-! ## Invariant -/

/-- The state of an appender that was created as `s₀` and takes calls. -/
structure Sound (engine : AppendEngine ε δ) (s₀ s : BufferState δ) (e : ε) : Prop where
  chunkElems : s.chunkElems = s₀.chunkElems
  maximum : s.maximum = s₀.maximum
  elementSize : s.elementSize = engine.elementSize
  lifecycle : s.lifecycle = if engine.failed e then .poisoned else .active
  error : s.pending.error = none
  within : WithinMaximum engine s e ∨ (s.unwritten = [] ∧ engine.published e = [])

end BufferState

/-- A move that reaches the last boundary leaves less than one chunk. -/
lemma Moved.short {e e' : ε} {k : ℕ} (h : Moved engine s e k s' e') (hpos : 0 < s.elementSize)
    (hshort : s.bufferedElements - k < s.chunkElems) :
    s'.unwritten.length < s'.chunkElems * s'.elementSize := by
  have hlt := BufferState.length_lt_of_bufferedElements hpos
  have hlen := h.length_unwritten
  have hmul : (s.bufferedElements + 1) * s.elementSize ≤ (s.chunkElems + k) * s.elementSize :=
    Nat.mul_le_mul_right _ (by omega)
  rw [Nat.add_mul s.chunkElems] at hmul
  rw [h.chunkElems, h.elementSize]
  omega

/-- A move keeps what the maximum allows. -/
lemma Moved.within {e e' : ε} {k : ℕ} (h : Moved engine s e k s' e')
    (hmax : WithinMaximum engine s e) : WithinMaximum engine s' e' := by
  intro m hm
  rw [h.maximum] at hm
  have hlen := h.length_unwritten
  have hbound := hmax m hm
  rw [h.elementSize, h.length, Nat.add_mul]
  omega

/-- Nothing moves out of an empty buffer. -/
lemma Moved.within_or {e e' : ε} {k : ℕ} (h : Moved engine s e k s' e')
    (hmax : WithinMaximum engine s e ∨ (s.unwritten = [] ∧ engine.published e = [])) :
    WithinMaximum engine s' e' ∨ (s'.unwritten = [] ∧ engine.published e' = []) := by
  rcases hmax with hmax | ⟨hempty, hnone⟩
  · exact .inl (h.within hmax)
  · refine .inr ⟨?_, ?_⟩
    · rw [h.unwritten, hempty, drop_nil]
    · rw [h.published, hempty, hnone, take_nil, append_nil]

end Hdf5Pure.Append
