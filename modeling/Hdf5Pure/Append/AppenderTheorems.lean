import Hdf5Pure.Append.BufferTheorems

/-!
# Histories of a buffered appender

What one call does to the published and the pending bytes, and what any history of calls does,
with failures of the engine at any of its calls.
-/

namespace Hdf5Pure.Append

open List

open Edit (Error)

variable {ε δ : Type} {engine : AppendEngine ε δ}

/-! ## Calls on the buffer -/

/-- What a call that brings `bytes` can do to the published and the pending bytes. -/
inductive Effect (engine : AppendEngine ε δ) (s : BufferState δ) (e : ε) (bytes : Bytes) :
    Except Error Unit → BufferState δ → ε → Prop
  | rejected (error : Error) (s' : BufferState δ) (e' : ε) (h : engine.Keeps e e')
      (hunwritten : s'.unwritten = s.unwritten) : Effect engine s e bytes (.error error) s' e'
  | completed (s' : BufferState δ) (e' : ε)
      (h : engine.published e' ++ s'.unwritten = engine.published e ++ s.unwritten ++ bytes)
      (hfailed : engine.failed e' = engine.failed e) : Effect engine s e bytes (.ok ()) s' e'
  | failed (error : Error) (s' : BufferState δ) (e' : ε)
      (h : engine.published e' ++ s'.unwritten = engine.published e ++ s.unwritten ++ bytes)
      (hbefore : engine.failed e = false) (hfailed : engine.failed e' = true) :
      Effect engine s e bytes (.error error) s' e'

/-- What an append that returns leaves: a write ended at a chunk boundary, and less than one chunk
is pending. -/
structure Drained (engine : AppendEngine ε δ) (e : ε) (s' : BufferState δ) (e' : ε) : Prop where
  boundary : engine.Keeps e e' ∨ s'.chunkElems ∣ engine.length e'
  short : s'.unwritten.length < s'.chunkElems * s'.elementSize

variable {r : Except Error Unit}

lemma Effect.of_keeps {s s' : BufferState δ} {e e₁ e' : ε} {bytes : Bytes}
    (h : Effect engine s e₁ bytes r s' e') (hkeeps : engine.Keeps e e₁) :
    Effect engine s e bytes r s' e' := by
  cases h with
  | rejected error _ _ h hunwritten => exact .rejected error _ _ (hkeeps.trans h) hunwritten
  | completed _ _ h hfailed => exact .completed _ _ (hkeeps.1 ▸ h) (hfailed.trans hkeeps.2.2)
  | failed error _ _ h hbefore hfailed =>
    exact .failed error _ _ (hkeeps.1 ▸ h) (hkeeps.2.2.symm.trans hbefore) hfailed

lemma Drained.of_keeps {s' : BufferState δ} {e e₁ e' : ε} (h : Drained engine e₁ s' e')
    (hkeeps : engine.Keeps e e₁) : Drained engine e s' e' :=
  ⟨h.boundary.imp_left hkeeps.trans, h.short⟩

/-- A write brings no bytes of its own. -/
lemma Effect.of_wrote {s s' : BufferState δ} {e e' : ε} {take : ℕ}
    (h : Wrote engine s e take r s' e') (hbefore : engine.failed e = false) :
    Effect engine s e [] r s' e' := by
  cases h with
  | rejected error _ h => exact .rejected error _ _ h rfl
  | completed _ _ h _ hfailed => exact .completed _ _ (by rw [h.conserves, append_nil]) hfailed
  | failed error k _ _ _ h _ hfailed =>
    exact .failed error _ _ (by rw [h.conserves, append_nil]) hbefore hfailed

lemma AppendBuilder.setDt_appendRaw [DecidableEq δ] {b : AppendBuilder δ} (h : b.error = none)
    (dt : δ) (bytes : Bytes) :
    ((b.setDt dt).appendRaw bytes).error = none ∧
      ((b.setDt dt).appendRaw bytes).raw = b.raw ++ bytes := by
  unfold AppendBuilder.setDt
  cases b.elemDt with
  | none => exact ⟨h, rfl⟩
  | some previous =>
    dsimp only
    split_ifs <;> exact ⟨h, rfl⟩

namespace BufferState

variable {s₀ s : BufferState δ} {e : ε}

lemma Sound.of_keeps (h : Sound engine s₀ s e) {e' : ε} (hkeeps : engine.Keeps e e') :
    Sound engine s₀ s e' := by
  refine ⟨h.chunkElems, h.maximum, h.elementSize, ?_, h.error, ?_⟩
  · rw [hkeeps.2.2, h.lifecycle]
  · rw [hkeeps.1]
    unfold WithinMaximum
    rw [hkeeps.2.1]
    exact h.within

lemma Sound.active (h : Sound engine s₀ s e) (hlife : s.lifecycle ≠ .poisoned) :
    s.lifecycle = .active ∧ engine.failed e = false := by
  have hcases := h.lifecycle
  cases hfailed : engine.failed e with
  | false =>
    rw [hfailed] at hcases
    exact ⟨hcases, rfl⟩
  | true =>
    rw [hfailed] at hcases
    exact absurd hcases hlife

/-- Only a buffer no write of which has failed is usable. -/
lemma Sound.checkUsable_spec (hengine : engine.Lawful) (h : Sound engine s₀ s e) :
    engine.Keeps e (s.checkUsable engine e).2 ∧
      ((s.checkUsable engine e).1 = .ok () → s.lifecycle = .active ∧ engine.failed e = false) := by
  have hkeeps := hengine.check_keeps e
  unfold checkUsable
  rcases hc : engine.checkMutable e with ⟨_ | _, e₁⟩ <;> rw [hc] at hkeeps
  · exact ⟨hkeeps, nofun⟩
  dsimp only
  by_cases hlife : s.lifecycle = .poisoned
  · rw [if_pos hlife]
    exact ⟨hkeeps, nofun⟩
  · rw [if_neg hlife]
    exact ⟨hkeeps, fun _ => h.active hlife⟩

lemma checkTail_keeps (hengine : engine.Lawful) (mode : FlushMode) (avail : ℕ) :
    engine.Keeps e (s.checkTail engine e mode avail).2 := by
  have hkeeps := hengine.geometry_keeps e
  unfold checkTail
  by_cases hcheck : s.lossyFilters ∧ s.pending.options.lossyTailReencoding = .reject ∧
      mode = .continues
  · rw [if_pos hcheck]
    rcases hg : engine.geometry e with ⟨_ | geometry, e₁⟩ <;> rw [hg] at hkeeps
    · exact hkeeps
    dsimp only
    cases checkedAdd geometry.currentDim avail with
    | none => exact hkeeps
    | some stop =>
      dsimp only
      by_cases hstop : stop % s.chunkElems ≠ 0
      · rw [if_pos hstop]
        exact hkeeps
      · rw [if_neg hstop]
        exact hkeeps
  · rw [if_neg hcheck]
    exact .refl e

lemma Sound.wrote (h : Sound engine s₀ s e) (hfailed : engine.failed e = false) {take : ℕ}
    {s' : BufferState δ} {e' : ε} (hw : Wrote engine s e take r s' e') :
    Sound engine s₀ s' e' := by
  have hlife := h.lifecycle
  rw [hfailed] at hlife
  cases hw with
  | rejected error _ hkeeps => exact h.of_keeps hkeeps
  | completed _ _ hm hsame hfailed' =>
    refine ⟨hm.chunkElems.trans h.chunkElems, hm.maximum.trans h.maximum,
      hm.elementSize.trans h.elementSize, ?_, hm.error.trans h.error, hm.within_or h.within⟩
    rw [hsame, hfailed', hfailed]
    exact hlife
  | failed error k _ _ hk hm hpoisoned hfailed' =>
    refine ⟨hm.chunkElems.trans h.chunkElems, hm.maximum.trans h.maximum,
      hm.elementSize.trans h.elementSize, ?_, hm.error.trans h.error, hm.within_or h.within⟩
    rw [hpoisoned, hfailed']
    rfl

section

variable (hengine : engine.Lawful)

include hengine

lemma Sound.settle_input (h : Sound engine s₀ s e)
    (hactive : s.lifecycle = .active) (hfailed : engine.failed e = false)
    {p : AppendBuilder δ} {bytes : Bytes} (hraw : p.raw = s.unwritten ++ bytes)
    (herr : p.error = none) :
    ∃ r s' e', { s with pending := p }.settle engine e s.pending.raw.length = .ok (r, s', e') ∧
      Sound engine s₀ s' e' ∧ Effect engine s e bytes r s' e' ∧
      (r = .ok () → Drained engine e s' e') := by
  have hpos : 0 < s.elementSize := h.elementSize ▸ hengine.elementSize_pos
  obtain ⟨r, s', e', hsettle, hcases⟩ := settle_spec (s := { s with pending := p })
    hengine h.elementSize hactive s.pending.raw.length
  have hraw' : ({ s with pending := p } : BufferState δ).unwritten = s.unwritten ++ bytes :=
    hraw
  have hsound : ∀ {s₁ : BufferState δ} {e₁ : ε} {k : ℕ},
      WithinMaximum engine { s with pending := p } e →
      Moved engine { s with pending := p } e k s₁ e₁ →
      s₁.lifecycle = (if engine.failed e₁ then .poisoned else .active) → Sound engine s₀ s₁ e₁ := by
    intro s₁ e₁ k hmax hm hlife
    exact ⟨hm.chunkElems.trans h.chunkElems, hm.maximum.trans h.maximum,
      hm.elementSize.trans h.elementSize, hlife, hm.error.trans herr, .inl (hm.within hmax)⟩
  refine ⟨r, s', e', hsettle, ?_⟩
  cases hcases with
  | rejected error _ hkeeps =>
    -- the input is taken back
    have hback : ({ s with pending := p.truncate s.pending.raw.length } :
        BufferState δ).unwritten = s.unwritten := by
      show p.raw.take s.unwritten.length = _
      rw [hraw, take_left]
    have hsame : Sound engine s₀ s e' := h.of_keeps hkeeps
    refine ⟨{ hsame with error := herr, within := ?_ }, .rejected error _ e' hkeeps hback, ?_⟩
    · unfold WithinMaximum
      rw [hback]
      exact hsame.within
    · exact nofun
  | buffered _ hkeeps hmax hshort =>
    refine ⟨⟨h.chunkElems, h.maximum, h.elementSize, ?_, herr, .inl ?_⟩,
      .completed _ _ ?_ hkeeps.2.2, fun _ => ⟨.inl hkeeps, ?_⟩⟩
    · show s.lifecycle = _
      rw [hkeeps.2.2, hfailed]
      exact hactive
    · unfold WithinMaximum
      rw [hkeeps.2.1]
      exact hmax
    · rw [hkeeps.1, hraw', append_assoc]
    · apply (length_lt_of_bufferedElements (s := { s with pending := p }) hpos).trans_le
      exact Nat.mul_le_mul_right _ hshort
  | wrote take _ _ hmax hmoved hlife hsame hboundary hshort =>
    refine ⟨hsound hmax hmoved ?_, .completed _ _ ?_ hsame, fun _ => ⟨.inr ?_, ?_⟩⟩
    · rw [hlife, hsame, hfailed]
      exact hactive
    · rw [hmoved.conserves, hraw', append_assoc]
    · rw [hmoved.chunkElems]
      exact hboundary
    · exact hmoved.short hpos hshort
  | failed error k _ _ hmax hmoved hlife hbroken =>
    refine ⟨hsound hmax hmoved ?_, .failed error _ _ ?_ hfailed hbroken, nofun⟩
    · rw [hlife, hbroken]
      rfl
    · rw [hmoved.conserves, hraw', append_assoc]

/-- **Raw input.** -/
theorem Sound.appendRaw_spec (h : Sound engine s₀ s e) (bytes : Bytes) :
    ∃ r s' e', s.appendRaw engine e bytes = .ok (r, s', e') ∧ Sound engine s₀ s' e' ∧
      Effect engine s e bytes r s' e' ∧ (engine.failed e = true → engine.Keeps e e') ∧
      (r = .ok () → Drained engine e s' e' ∧ engine.failed e = false) := by
  obtain ⟨hkeeps, husable⟩ := h.checkUsable_spec hengine
  unfold appendRaw
  rcases hc : s.checkUsable engine e with ⟨error | _, e₁⟩ <;> rw [hc] at hkeeps husable
  · exact ⟨_, _, _, rfl, h.of_keeps hkeeps, .rejected error s e₁ hkeeps rfl, fun _ => hkeeps,
      fun h => by cases h⟩
  obtain ⟨hactive, hfailed⟩ := husable rfl
  obtain ⟨r, s', e', hsettle, hsound, heffect, hdrained⟩ :=
    (h.of_keeps hkeeps).settle_input hengine hactive (hkeeps.2.2.trans hfailed)
      (p := s.pending.appendRaw bytes) rfl h.error
  refine ⟨r, s', e', hsettle, hsound, heffect.of_keeps hkeeps, ?_, fun hr => ⟨?_, hfailed⟩⟩
  · intro hbroken
    rw [hfailed] at hbroken
    cases hbroken
  · exact (hdrained hr).of_keeps hkeeps

/-- **Typed input.** -/
theorem Sound.append_spec [DecidableEq δ] (h : Sound engine s₀ s e) (data : Elements δ) :
    ∃ r s' e', s.append engine e data = .ok (r, s', e') ∧ Sound engine s₀ s' e' ∧
      Effect engine s e data.bytes r s' e' ∧ (engine.failed e = true → engine.Keeps e e') ∧
      (r = .ok () → Drained engine e s' e' ∧ engine.failed e = false) := by
  obtain ⟨hkeeps, husable⟩ := h.checkUsable_spec hengine
  unfold append
  rcases hc : s.checkUsable engine e with ⟨error | _, e₁⟩ <;> rw [hc] at hkeeps husable
  · exact ⟨_, _, _, rfl, h.of_keeps hkeeps, .rejected error s e₁ hkeeps rfl, fun _ => hkeeps,
      fun h => by cases h⟩
  obtain ⟨hactive, hfailed⟩ := husable rfl
  have hsame := h.of_keeps hkeeps
  cases hdata : data.datatype with
  | error error =>
    -- an invalid datatype is reported before any byte is taken
    have happend : s.pending.append data = { s.pending with error := some error } := by
      rw [AppendBuilder.append, hdata]
      dsimp only
      rw [AppendBuilder.setError, h.error]
      rfl
    simp only [happend, AppendBuilder.takeError]
    exact ⟨_, _, _, rfl, { hsame with error := rfl }, .rejected _ _ e₁ hkeeps rfl,
      fun _ => hkeeps, fun h => by cases h⟩
  | ok datatype =>
    have hpend : (s.pending.append data).error = none ∧
        (s.pending.append data).raw = s.unwritten ++ data.bytes := by
      rw [AppendBuilder.append, hdata]
      exact AppendBuilder.setDt_appendRaw h.error datatype data.bytes
    obtain ⟨r, s', e', hsettle, hsound, heffect, hdrained⟩ :=
      hsame.settle_input hengine hactive (hkeeps.2.2.trans hfailed)
        (p := { s.pending.append data with error := none }) hpend.2 rfl
    simp only [AppendBuilder.takeError, hpend.1]
    refine ⟨r, s', e', hsettle, hsound, heffect.of_keeps hkeeps, ?_, fun hr => ⟨?_, hfailed⟩⟩
    · intro hbroken
      rw [hfailed] at hbroken
      cases hbroken
    · exact (hdrained hr).of_keeps hkeeps

/-- **Flushes.** -/
theorem Sound.flush_spec (h : Sound engine s₀ s e) (mode : FlushMode) :
    ∃ r s' e', s.flush engine e mode = (r, s', e') ∧ Sound engine s₀ s' e' ∧
      Effect engine s e [] r s' e' ∧ (engine.failed e = true → engine.Keeps e e') := by
  obtain ⟨hkeeps, husable⟩ := h.checkUsable_spec hengine
  unfold flush
  rcases hc : s.checkUsable engine e with ⟨error | _, e₁⟩ <;> rw [hc] at hkeeps husable
  · exact ⟨_, _, _, rfl, h.of_keeps hkeeps, .rejected error s e₁ hkeeps rfl, fun _ => hkeeps⟩
  obtain ⟨hactive, hfailed⟩ := husable rfl
  have hsame := h.of_keeps hkeeps
  cases hwhole : s.wholeElements with
  | error error =>
    exact ⟨_, _, _, rfl, hsame, .rejected error s e₁ hkeeps rfl, fun _ => hkeeps⟩
  | ok avail =>
    dsimp only
    have havail : avail = s.bufferedElements := by
      obtain ⟨-, hwhole⟩ := ite_error_eq_ok.mp hwhole
      exact (Except.ok.inj hwhole).symm
    by_cases hzero : avail = 0
    · rw [if_pos hzero]
      refine ⟨_, _, _, rfl, hsame, .completed _ _ ?_ hkeeps.2.2, fun _ => hkeeps⟩
      rw [hkeeps.1, append_nil]
    rw [if_neg hzero]
    have htail := checkTail_keeps (s := s) (e := e₁) hengine mode avail
    rcases ht : s.checkTail engine e₁ mode avail with ⟨error | _, e₂⟩ <;> rw [ht] at htail
    · have hboth := hkeeps.trans htail
      exact ⟨_, _, _, rfl, h.of_keeps hboth, .rejected error s e₂ hboth rfl, fun _ => hboth⟩
    have hboth := hkeeps.trans htail
    dsimp only
    rcases hw : s.writePrefix engine e₂ avail with ⟨r, s', e'⟩
    have hwrote := writePrefix_spec (e := e₂) hengine h.elementSize havail.le
    rw [hw] at hwrote
    refine ⟨r, s', e', rfl, (h.of_keeps hboth).wrote (hboth.2.2.trans hfailed) hwrote, ?_, ?_⟩
    · exact (Effect.of_wrote hwrote (hboth.2.2.trans hfailed)).of_keeps hboth
    · intro hbroken
      rw [hfailed] at hbroken
      cases hbroken

/-- **A drop.** It reports no error. -/
theorem Sound.teardown_spec (h : Sound engine s₀ s e) :
    ∃ r s' e', s.teardown engine e = ({ s' with lifecycle := .stopped }, e') ∧
      Sound engine s₀ s' e' ∧ Effect engine s e [] r s' e' ∧
      (engine.failed e = true → engine.Keeps e e') := by
  unfold teardown
  by_cases hflush : s.lifecycle = .active ∧ s.pending.raw ≠ []
  · obtain ⟨r, s', e', hs, hsound, heffect, hkeeps⟩ := h.flush_spec hengine .finish
    rw [if_pos hflush, hs]
    exact ⟨r, s', e', rfl, hsound, heffect, hkeeps⟩
  · rw [if_neg hflush]
    refine ⟨.ok (), s, e, rfl, h, .completed _ _ (append_nil _).symm rfl, fun _ => .refl e⟩

end

lemma new_sound (hengine : engine.Lawful) {options : AppendOptions} {e₀ : ε}
    (h : new engine options e₀ = (.ok s, e)) (hpub : engine.published e₀ = [])
    (hfailed : engine.failed e₀ = false) : Sound engine s s e ∧ s.unwritten = [] ∧
      engine.Keeps e₀ e := by
  have hkeeps := hengine.geometry_keeps e₀
  have hreports := hengine.geometry_reports e₀
  unfold new at h
  rcases hg : engine.geometry e₀ with ⟨_ | geometry, e₁⟩ <;> rw [hg] at hkeeps hreports h
  · cases h
  dsimp only at h
  split at h
  · cases h
  by_cases hchunk : 0 < geometry.chunkElems
  · rw [dif_pos hchunk] at h
    split at h
    · cases h
    have hclaim := hengine.claim_keeps e₁
    rcases hc : engine.claimForAppender e₁ with ⟨_ | _, e₂⟩ <;> rw [hc] at hclaim h
    · cases h
    cases h
    have hboth := hkeeps.trans hclaim
    refine ⟨⟨rfl, rfl, (hreports geometry rfl).2, ?_, rfl, .inr ⟨rfl, ?_⟩⟩, rfl, hboth⟩
    · rw [hboth.2.2, hfailed]
      rfl
    · rw [hboth.1, hpub]
  · rw [dif_neg hchunk] at h
    cases h

end BufferState

/-! ## Calls on an appender -/

def Call.bytes : Call δ → Bytes
  | .append data => data.bytes
  | .appendRaw bytes => bytes
  | _ => []

def Call.isAppend : Call δ → Bool
  | .append _ => true
  | .appendRaw _ => true
  | _ => false

/-- What a call on an appender that was created as `s₀` does. -/
structure CallEffect (engine : AppendEngine ε δ) (s₀ : BufferState δ) (a : Appender ε δ)
    (call : Call δ) (r : Reply) (a' : Appender ε δ) : Prop where
  /-- A call that returned, or failed inside a write, adds its bytes. -/
  conserves : r.result = .ok () ∨ r.writeFailed = true →
    engine.published a'.dataset ++ a'.state.unwritten =
      engine.published a.dataset ++ a.state.unwritten ++ call.bytes
  /-- A call that failed before the write path changes nothing. -/
  rejected : r.result ≠ .ok () → r.writeFailed = false →
    engine.published a'.dataset = engine.published a.dataset ∧
      a'.state.unwritten = a.state.unwritten
  /-- An append that returned wrote up to a chunk boundary, if it wrote. -/
  boundary : call.isAppend = true → r.result = .ok () →
    engine.published a'.dataset = engine.published a.dataset ∨
      s₀.chunkElems ∣ engine.length a'.dataset
  /-- It leaves less than one chunk pending. -/
  short : call.isAppend = true → r.result = .ok () →
    a'.state.unwritten.length < s₀.chunkElems * engine.elementSize
  /-- Whatever was published fits a fixed maximum. -/
  maximum : ∀ m, s₀.maximum = .fixed m →
    engine.length a'.dataset ≤ m ∨ engine.published a'.dataset = []
  /-- After a failed write no call publishes anything, and no append returns. -/
  stopped : engine.failed a.dataset = true →
    engine.Keeps a.dataset a'.dataset ∧ (call.isAppend = true → r.result ≠ .ok ())
  writeFailed : r.writeFailed = (engine.failed a'.dataset && !engine.failed a.dataset)
  /-- An append in which a write failed does not return. -/
  failure : r.writeFailed = true → call.isAppend = true → r.result ≠ .ok ()

lemma Call.bytes_eq_nil {call : Call δ} (h : call.isAppend = false) : call.bytes = [] := by
  cases call with
  | append data => cases h
  | appendRaw bytes => cases h
  | flush => rfl
  | finish => rfl
  | drop => rfl

/-- The effect on the buffer as the effect of a call. A drop reports no error. -/
lemma CallEffect.of_effect (hengine : engine.Lawful) {s₀ s' : BufferState δ} {a : Appender ε δ}
    (call : Call δ) {reported : Except Error Unit} {e' : ε}
    (hsound : BufferState.Sound engine s₀ s' e')
    (heffect : Effect engine a.state a.dataset call.bytes r s' e')
    (hstop : engine.failed a.dataset = true → engine.Keeps a.dataset e')
    (hdrained : call.isAppend = true → r = .ok () →
      Drained engine a.dataset s' e' ∧ engine.failed a.dataset = false)
    (hreported : reported = r ∨ (call.isAppend = false ∧ reported = .ok ()))
    (state : BufferState δ) (hstate : state.unwritten = s'.unwritten) (consumed : Bool) :
    CallEffect engine s₀ a call ⟨reported, engine.failed e' && !engine.failed a.dataset⟩
      ⟨state, e', consumed⟩ := by
  have happend : call.isAppend = true → reported = r := by
    intro h
    rcases hreported with hr | ⟨hnot, -⟩
    · exact hr
    · rw [hnot] at h
      cases h
  refine ⟨?_, ?_, ?_, ?_, ?_, ?_, rfl, ?_⟩
  · intro hadds
    rw [hstate]
    cases heffect with
    | completed _ _ h _ => exact h
    | failed error _ _ h _ _ => exact h
    | rejected error _ _ h hunwritten =>
      -- only a drop returns from a flush that was rejected
      rcases hreported with rfl | ⟨hnot, -⟩
      · rw [h.2.2] at hadds
        simp at hadds
      · rw [h.1, hunwritten, Call.bytes_eq_nil hnot, append_nil]
  · intro herr hnot
    rw [hstate]
    have hr : reported = r := hreported.resolve_right fun h => herr h.2
    cases heffect with
    | completed _ _ _ _ => exact absurd hr herr
    | failed error _ _ _ hbefore hfailed =>
      rw [hfailed, hbefore] at hnot
      cases hnot
    | rejected error _ _ h hunwritten => exact ⟨h.1, hunwritten⟩
  · intro hcall hok
    obtain ⟨hd, -⟩ := hdrained hcall ((happend hcall).symm.trans hok)
    rw [← hsound.chunkElems]
    exact hd.boundary.imp_left fun h => h.1
  · intro hcall hok
    obtain ⟨hd, -⟩ := hdrained hcall ((happend hcall).symm.trans hok)
    show state.unwritten.length < _
    rw [hstate, ← hsound.chunkElems, ← hsound.elementSize]
    exact hd.short
  · intro m hm
    refine hsound.within.imp (fun h => ?_) fun h => h.2
    have hpos : 0 < s'.elementSize := hsound.elementSize ▸ hengine.elementSize_pos
    have hle := h m (hsound.maximum.trans hm)
    exact Nat.le_of_mul_le_mul_right ((Nat.le_add_right _ _).trans hle) hpos
  · intro hbefore
    refine ⟨hstop hbefore, fun hcall hok => ?_⟩
    obtain ⟨-, hfailed⟩ := hdrained hcall ((happend hcall).symm.trans hok)
    rw [hfailed] at hbefore
    cases hbefore
  · intro hfailed hcall hok
    rw [happend hcall] at hok
    cases heffect with
    | completed _ _ _ hsame => rw [hsame] at hfailed; simp at hfailed
    | failed error _ _ _ _ _ => cases hok
    | rejected error _ _ _ _ => cases hok

namespace Appender

/-- Every call meets its effect, and an appender that is not consumed stays sound. -/
lemma step_spec [DecidableEq δ] (hengine : engine.Lawful) {s₀ : BufferState δ}
    {a : Appender ε δ} (h : BufferState.Sound engine s₀ a.state a.dataset) (call : Call δ) :
    ∃ r a', a.step engine call = .ok (r, a') ∧
      (a'.consumed = false → BufferState.Sound engine s₀ a'.state a'.dataset) ∧
      CallEffect engine s₀ a call r a' := by
  cases call with
  | append data =>
    obtain ⟨r, s', e', hs, hsound, heffect, hstop, hdrained⟩ := h.append_spec hengine data
    refine ⟨_, _, by rw [step, hs]; rfl, fun _ => hsound, ?_⟩
    exact .of_effect hengine (.append data) hsound heffect hstop (fun _ => hdrained) (.inl rfl) s'
      rfl false
  | appendRaw bytes =>
    obtain ⟨r, s', e', hs, hsound, heffect, hstop, hdrained⟩ := h.appendRaw_spec hengine bytes
    refine ⟨_, _, by rw [step, hs]; rfl, fun _ => hsound, ?_⟩
    exact .of_effect hengine (.appendRaw bytes) hsound heffect hstop (fun _ => hdrained) (.inl rfl)
      s' rfl false
  | flush =>
    obtain ⟨r, s', e', hs, hsound, heffect, hstop⟩ := h.flush_spec hengine .continues
    refine ⟨_, _, by rw [step, hs], fun _ => hsound, ?_⟩
    exact .of_effect hengine .flush hsound heffect hstop nofun (.inl rfl) s' rfl
      false
  | finish =>
    obtain ⟨r, s', e', hs, hsound, heffect, hstop⟩ := h.flush_spec hengine .finish
    -- the drop after it finds the buffer stopped
    have hdropped : ({ s' with lifecycle := .stopped } : BufferState δ).teardown engine e' =
        ({ s' with lifecycle := .stopped }, e') := by
      rw [BufferState.teardown, if_neg (by simp)]
    have hstep : a.step engine .finish =
        .ok (a.replied engine true (r, { s' with lifecycle := .stopped }, e')) := by
      rw [step, BufferState.finish, hs]
      dsimp only
      rw [hdropped]
    refine ⟨_, _, hstep, nofun, ?_⟩
    exact .of_effect hengine .finish hsound heffect hstop nofun (.inl rfl)
      { s' with lifecycle := .stopped } rfl true
  | drop =>
    obtain ⟨r, s', e', hs, hsound, heffect, hstop⟩ := h.teardown_spec hengine
    refine ⟨_, _, by rw [step, hs], (by intro h; cases h), ?_⟩
    exact .of_effect hengine .drop hsound heffect hstop nofun
      (.inr ⟨rfl, rfl⟩) { s' with lifecycle := .stopped } rfl true

end Appender

/-! ## Histories -/

def acceptedBytes (history : List (Call δ × Reply)) : Bytes :=
  history.flatMap fun (call, reply) => if reply.result.isOk then call.bytes else []

def failedBytes (history : List (Call δ × Reply)) : Bytes :=
  history.flatMap fun (call, reply) => if reply.writeFailed then call.bytes else []

section Histories

variable {s₀ : BufferState δ} {a a' : Appender ε δ} {calls : List (Call δ)} {replies : List Reply}

lemma CallEffect.bytes_stopped {call : Call δ} {r : Reply} (h : CallEffect engine s₀ a call r a')
    (hfailed : engine.failed a.dataset = true) :
    (if r.result.isOk then call.bytes else []) = [] ∧ r.writeFailed = false := by
  refine ⟨?_, by rw [h.writeFailed, hfailed, Bool.not_true, Bool.and_false]⟩
  cases hcall : call.isAppend with
  | false => rw [Call.bytes_eq_nil hcall, ite_self]
  | true =>
    have hnot := (h.stopped hfailed).2 hcall
    cases hr : r.result with
    | error error => rfl
    | ok => exact absurd hr hnot

/-- Once a write has failed, it stays failed, and no call brings bytes. -/
lemma bytes_after_failure (ht : Trace (CallEffect engine s₀) a calls replies a')
    (hfailed : engine.failed a.dataset = true) :
    acceptedBytes (calls.zip replies) = [] ∧ failedBytes (calls.zip replies) = [] := by
  induction ht with
  | nil a => exact ⟨rfl, rfl⟩
  | cons head tail ih =>
    obtain ⟨hok, hwrite⟩ := head.bytes_stopped hfailed
    obtain ⟨ih₁, ih₂⟩ := ih ((head.stopped hfailed).1.2.2.trans hfailed)
    simp only [acceptedBytes, failedBytes, zip_cons_cons, flatMap_cons] at ih₁ ih₂ ⊢
    rw [hok, hwrite, ih₁, ih₂]
    exact ⟨rfl, rfl⟩

/-- **Conservation.** The published and the pending bytes are those of the calls that returned,
then those of the call a write failed in. -/
theorem bytes_conserved (ht : Trace (CallEffect engine s₀) a calls replies a') :
    engine.published a'.dataset ++ a'.state.unwritten =
      engine.published a.dataset ++ a.state.unwritten ++
        (acceptedBytes (calls.zip replies) ++ failedBytes (calls.zip replies)) := by
  induction ht with
  | nil a => exact (append_nil _).symm
  | @cons a a₁ a' call r calls replies head tail ih =>
    have haccepted : acceptedBytes ((call :: calls).zip (r :: replies)) =
        (if r.result.isOk then call.bytes else []) ++ acceptedBytes (calls.zip replies) := rfl
    have hlost : failedBytes ((call :: calls).zip (r :: replies)) =
        (if r.writeFailed then call.bytes else []) ++ failedBytes (calls.zip replies) := rfl
    rw [ih, haccepted, hlost]
    cases hwrite : r.writeFailed with
    | true =>
      -- every later call is refused
      have hfailed : engine.failed a₁.dataset = true := by
        have := head.writeFailed
        rw [hwrite] at this
        exact (Bool.and_eq_true_iff.mp this.symm).1
      obtain ⟨h₁, h₂⟩ := bytes_after_failure tail hfailed
      rw [h₁, h₂, head.conserves (.inr hwrite)]
      cases hcall : call.isAppend with
      | false => simp [Call.bytes_eq_nil hcall]
      | true =>
        cases hr : r.result with
        | ok => exact absurd hr (head.failure hwrite hcall)
        | error error => simp [Except.isOk, Except.toBool]
    | false =>
      cases hr : r.result with
      | ok =>
        rw [head.conserves (.inl hr)]
        simp [Except.isOk, Except.toBool]
      | error error =>
        obtain ⟨hpub, hunwritten⟩ := head.rejected (by rw [hr]; exact nofun) hwrite
        rw [hpub, hunwritten]
        simp [Except.isOk, Except.toBool]

end Histories

/-- **A history of calls on a new appender.** No assertion fails. The published and the pending bytes
are exactly those of the calls that returned, then those of the call a write failed in, and every
call has the effect `CallEffect` states. -/
theorem history_conserves [DecidableEq δ] (hengine : engine.Lawful) {options : AppendOptions}
    {e₀ e : ε} {s : BufferState δ} (hnew : BufferState.new engine options e₀ = (.ok s, e))
    (hpublished : engine.published e₀ = []) (hfailed : engine.failed e₀ = false)
    {calls : List (Call δ)}
    (hcalls : AllowedRun (Appender.step engine) (fun a _ => a.consumed = false) ⟨s, e, false⟩
      calls) :
    ∃ replies a, runAll (Appender.step engine) ⟨s, e, false⟩ calls = .ok (replies, a) ∧
      engine.published a.dataset ++ a.state.unwritten =
        acceptedBytes (calls.zip replies) ++ failedBytes (calls.zip replies) ∧
      Trace (CallEffect engine s) ⟨s, e, false⟩ calls replies a := by
  obtain ⟨hsound, hempty, hkeeps⟩ := BufferState.new_sound hengine hnew hpublished hfailed
  obtain ⟨replies, a, hrun, -, htrace⟩ := hcalls.trace
    (fun a : Appender ε δ => a.consumed = false → BufferState.Sound engine s a.state a.dataset)
    (fun a call hinv hlive => Appender.step_spec hengine (hinv hlive) call) (fun _ => hsound)
  have htrace' : Trace (CallEffect engine s) ⟨s, e, false⟩ calls replies a :=
    htrace.imp fun _ _ _ _ h => h.2
  refine ⟨replies, a, hrun, ?_, htrace'⟩
  rw [bytes_conserved htrace']
  show engine.published e ++ s.unwritten ++ _ = _
  rw [hkeeps.1, hpublished, hempty]
  rfl

/-- A dataset in chunks of two two-byte elements that holds three of at most nine, and whose appends
stop after a scripted number of elements. -/
structure ScriptedDataset where
  published : Bytes
  length : ℕ
  failed : Bool
  script : List ℕ

def scriptedEngine : AppendEngine ScriptedDataset Unit where
  elementSize := 2
  sessionIsSwmr := fun _ => false
  claimForAppender := fun e => (.ok (), e)
  checkMutable := fun e => (.ok (), e)
  geometry := fun e => (.ok ⟨2, 2, e.length, .fixed 9, false⟩, e)
  appendPrebuilt := fun e head =>
    let n := head.raw.length / 2
    let k := min (e.script.headD n) n
    (if k = n then .ok () else .error .io,
      ⟨e.published ++ head.raw.take (k * 2), e.length + k, e.failed || decide (k ≠ n),
        e.script.tail⟩)
  published := ScriptedDataset.published
  length := ScriptedDataset.length
  failed := ScriptedDataset.failed

lemma scriptedEngine_lawful : scriptedEngine.Lawful where
  elementSize_pos := by decide
  claim_keeps := fun e => .refl e
  check_keeps := fun e => .refl e
  geometry_keeps := fun e => .refl e
  geometry_reports := by
    intro e g h
    cases h
    exact ⟨rfl, rfl⟩
  append_lands := by
    intro e head n h
    have hn : head.raw.length / 2 = n := by
      rw [h]
      exact Nat.mul_div_cancel n (by decide)
    refine ⟨min (e.script.headD (head.raw.length / 2)) (head.raw.length / 2), ?_, rfl, rfl, ?_⟩
    · exact (min_le_right _ _).trans hn.le
    · intro hok
      by_contra hne
      simp only [scriptedEngine] at hok
      rw [if_neg (by rw [hn] at hne ⊢; exact hne)] at hok
      cases hok
  append_ok := by
    intro e head h
    simp only [scriptedEngine] at h ⊢
    split at h
    · rename_i heq
      rw [decide_eq_false (not_not.mpr heq), Bool.or_false]
    · cases h
  append_error := by
    intro e head error h
    simp only [scriptedEngine] at h ⊢
    split at h
    · cases h
    · rename_i hne
      exact ⟨by rw [decide_eq_true hne, Bool.or_true], _, rfl⟩

/-- Raw and typed input, a flush and the end of the appender. -/
def scriptedCalls : List (Call Unit) :=
  [.appendRaw [1, 2, 3], .append ⟨.ok (), [4, 5, 6, 7]⟩, .appendRaw [8, 9, 10], .flush, .finish]

/-- The second call writes up to a chunk boundary. The write of the third lands one of two elements,
and the calls after it are refused. -/
theorem history_conserves_scripted :
    ∃ replies a, runAll (Appender.step scriptedEngine)
        ⟨⟨2, 2, false, .fixed 9, .withOptions .new, .active, by decide⟩, ⟨[], 3, false, [3, 1]⟩,
          false⟩ scriptedCalls = .ok (replies, a) ∧
      a.dataset.published ++ a.state.unwritten = [1, 2, 3, 4, 5, 6, 7, 8, 9, 10] := by
  have hnew : BufferState.new scriptedEngine .new ⟨[], 3, false, [3, 1]⟩ =
      (.ok ⟨2, 2, false, .fixed 9, .withOptions .new, .active, by decide⟩,
        ⟨[], 3, false, [3, 1]⟩) := by rfl
  have hcalls : AllowedRun (Appender.step scriptedEngine) (fun a _ => a.consumed = false)
      ⟨⟨2, 2, false, .fixed 9, .withOptions .new, .active, by decide⟩, ⟨[], 3, false, [3, 1]⟩,
        false⟩ scriptedCalls :=
    .cons (by rfl) rfl (.cons (by rfl) rfl (.cons (by rfl) rfl (.cons (by rfl) rfl
      (.cons (by rfl) rfl trivial))))
  obtain ⟨replies, a, hrun, hbytes, -⟩ :=
    history_conserves scriptedEngine_lawful hnew rfl rfl hcalls
  refine ⟨replies, a, hrun, hbytes.trans ?_⟩
  cases hrun
  rfl

end Hdf5Pure.Append
