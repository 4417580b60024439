import Hdf5Pure.Append.AppenderTheorems

/-!
# Rejected appends

An append that fails before the write path takes its bytes back. The datatype it recorded stays, as
`truncate` restores the length of the buffer and nothing else.
-/

namespace Hdf5Pure.Append

open Edit (Error)

variable {ε δ : Type} {engine : AppendEngine ε δ}

/-- The queries leave the dataset as every later call sees it. -/
structure AppendEngine.Transparent (engine : AppendEngine ε δ) : Prop where
  check (e : ε) : (engine.checkMutable e).2 = e
  geometry (e : ε) : (engine.geometry e).2 = e

namespace BufferState

variable {s s' : BufferState δ} {e e' : ε} {error : Error} (hquery : engine.Transparent)

lemma dropLanded_lifecycle (landed : ℕ) (result : Except Error Unit) :
    (s.dropLanded landed result).2.lifecycle = s.lifecycle := by
  unfold dropLanded
  cases s.byteLen landed <;> rfl

/-- A datatype is recorded beside the bytes and the error. -/
lemma setDt_keeps [DecidableEq δ] (b : AppendBuilder δ) (dt : δ) :
    (b.setDt dt).raw = b.raw ∧ (b.setDt dt).error = b.error := by
  unfold AppendBuilder.setDt
  split
  · split <;> exact ⟨rfl, rfl⟩
  · exact ⟨rfl, rfl⟩

include hquery

/-- A write that fails and does not poison the buffer was not attempted. -/
lemma writePrefix_rejected {take : ℕ} (h : s.writePrefix engine e take = (.error error, s', e'))
    (hactive : s'.lifecycle = .active) : s' = s ∧ e' = e := by
  have hsame := hquery.geometry e
  unfold writePrefix at h
  rcases hg : engine.geometry e with ⟨_ | geometry, e₁⟩ <;> rw [hg] at h hsame
  · cases h
    exact ⟨rfl, hsame⟩
  cases hbytes : s.byteLen take with
  | error error =>
    rw [hbytes] at h
    cases h
    exact ⟨rfl, hsame⟩
  | ok bytes =>
    rw [hbytes] at h
    dsimp only at h
    rcases ha : engine.appendPrebuilt e₁ (s.pending.head bytes) with ⟨_ | _, e₂⟩ <;> rw [ha] at h
    · -- both ways of counting what landed keep the mark of the failure
      have hpoisoned : s'.lifecycle = .poisoned := by
        dsimp only at h
        rcases hg₂ : engine.geometry e₂ with ⟨_ | geometry₂, e₃⟩ <;> rw [hg₂] at h <;>
          rw [← (Prod.mk.inj (Prod.mk.inj h).2).1, dropLanded_lifecycle]
      rw [hpoisoned] at hactive
      cases hactive
    · rw [dropLanded, hbytes] at h
      cases h

lemma checkMaximum_same : (s.checkMaximum engine e).2 = e := by
  have hsame := hquery.geometry e
  unfold checkMaximum
  cases s.maximum with
  | unlimited => rfl
  | fixed maximum =>
    rcases hg : engine.geometry e with ⟨_ | geometry, e₁⟩ <;> rw [hg] at hsame
    · exact hsame
    dsimp only
    cases checkedSub maximum geometry.currentDim with
    | none => exact hsame
    | some remaining => exact (apply_ite Prod.snd _ _ _).trans ((ite_self _).trans hsame)

/-- An automatic write that fails and does not poison the buffer was not attempted. -/
lemma writeCompleteChunks_rejected (h : s.writeCompleteChunks engine e = .ok (.error error, s', e'))
    (hactive : s'.lifecycle = .active) : s' = s ∧ e' = e := by
  have hsame := hquery.geometry e
  unfold writeCompleteChunks at h
  dsimp only at h
  split at h
  · cases h
  rcases hg : engine.geometry e with ⟨_ | geometry, e₁⟩ <;> rw [hg] at h hsame
  · cases h
    exact ⟨rfl, hsame⟩
  obtain ⟨-, -, h⟩ := bind_eq_ok.mp h
  obtain ⟨-, -, h⟩ := bind_eq_ok.mp h
  exact hsame ▸ writePrefix_rejected hquery (Except.ok.inj h) hactive

/-- Input that is rejected while the buffer stays active is cut off again. -/
lemma settle_rejected {mark : ℕ} (hlife : s.lifecycle = .active)
    (h : s.settle engine e mark = .ok (.error error, s', e')) (hactive : s'.lifecycle = .active) :
    s' = { s with pending := s.pending.truncate mark } ∧ e' = e := by
  have hcheck := checkMaximum_same (s := s) (e := e) hquery
  unfold settle at h
  rcases hc : s.checkMaximum engine e with ⟨_ | _, e₁⟩ <;> rw [hc] at h hcheck
  · simp only [Checked.ok_bind, if_pos hlife] at h
    cases h
    exact ⟨rfl, hcheck⟩
  · obtain ⟨⟨result, s₁, e₂⟩, hwrite, h⟩ := bind_eq_ok.mp h
    cases result with
    | ok => cases h
    | error error₁ =>
      dsimp only at h
      by_cases hkept : s₁.lifecycle = .active
      · rw [if_pos hkept] at h
        cases h
        obtain ⟨rfl, rfl⟩ := writeCompleteChunks_rejected hquery hwrite hkept
        exact ⟨rfl, hcheck⟩
      · rw [if_neg hkept] at h
        cases h
        exact absurd hactive hkept

lemma checkUsable_same : (s.checkUsable engine e).2 = e := by
  have hsame := hquery.check e
  unfold checkUsable
  rcases hc : engine.checkMutable e with ⟨_ | _, e₁⟩ <;> rw [hc] at hsame
  · exact hsame
  · exact (apply_ite Prod.snd _ _ _).trans ((ite_self _).trans hsame)

/-- Rejected raw input leaves no trace. -/
lemma appendRaw_rejected {bytes : Bytes} (hlife : s.lifecycle = .active)
    (h : s.appendRaw engine e bytes = .ok (.error error, s', e'))
    (hactive : s'.lifecycle = .active) : s' = s ∧ e' = e := by
  have husable := checkUsable_same (s := s) (e := e) hquery
  unfold appendRaw at h
  rcases hc : s.checkUsable engine e with ⟨_ | _, e₁⟩ <;> rw [hc] at h husable
  · cases h
    exact ⟨rfl, husable⟩
  · obtain ⟨rfl, rfl⟩ := settle_rejected (s := { s with pending := s.pending.appendRaw bytes })
      hquery hlife h hactive
    refine ⟨?_, husable⟩
    simp [AppendBuilder.truncate, AppendBuilder.appendRaw]

variable [DecidableEq δ] {data : Elements δ}

/-- Of rejected typed input the datatype stays, if the input was taken at all. -/
lemma append_rejected (hlife : s.lifecycle = .active) (herr : s.pending.error = none)
    (h : s.append engine e data = .ok (.error error, s', e')) (hactive : s'.lifecycle = .active) :
    e' = e ∧ ((engine.checkMutable e).1 ≠ .ok () ∧ s' = s ∨
      (engine.checkMutable e).1 = .ok () ∧
        s' = { s with pending := data.datatype.toOption.elim s.pending s.pending.setDt }) := by
  have hsame := hquery.check e
  unfold append checkUsable at h
  rcases hc : engine.checkMutable e with ⟨_ | _, e₁⟩ <;> rw [hc] at h hsame
  · cases h
    exact ⟨hsame, .inl ⟨nofun, rfl⟩⟩
  dsimp only at h
  rw [if_neg (by simp [hlife])] at h
  cases hdata : data.datatype with
  | error error₁ =>
    -- the error is reported and cleared again
    have hcleared : ({ s.pending with error := none } : AppendBuilder δ) = s.pending := by
      rw [← herr]
    simp only [AppendBuilder.append, hdata, AppendBuilder.takeError, AppendBuilder.setError,
      herr, Option.isNone_none, if_true, hcleared] at h
    cases h
    exact ⟨hsame, .inr ⟨rfl, rfl⟩⟩
  | ok dt =>
    obtain ⟨hraw, herror'⟩ := setDt_keeps s.pending dt
    rw [herr] at herror'
    have htaken : (s.pending.append data).takeError =
        (none, (s.pending.setDt dt).appendRaw data.bytes) := by
      simp only [AppendBuilder.append, hdata, AppendBuilder.takeError, AppendBuilder.appendRaw]
      rw [← herror']
    simp only [htaken] at h
    obtain ⟨rfl, rfl⟩ := settle_rejected
      (s := { s with pending := (s.pending.setDt dt).appendRaw data.bytes }) hquery hlife h hactive
    refine ⟨hsame, .inr ⟨rfl, ?_⟩⟩
    simp [AppendBuilder.truncate, AppendBuilder.appendRaw, ← hraw, Except.toOption]

end BufferState

/-- **A rejected append.** An append that fails and does not poison the buffer leaves an appender on
which every later sequence of calls runs as it would have before it, exactly if the dataset refused
the call before its input was taken, or recording the datatype of the input changes nothing. -/
theorem rejected_append_undone [DecidableEq δ] (hquery : engine.Transparent) (s₀ : BufferState δ)
    {a a' : Appender ε δ} (hsound : BufferState.Sound engine s₀ a.state a.dataset)
    (hlive : a.consumed = false) (hfailed : engine.failed a.dataset = false) (call : Call δ)
    (hcall : call.isAppend = true) {reply : Reply} (hstep : a.step engine call = .ok (reply, a'))
    (hres : reply.result ≠ .ok ()) (hactive : a'.state.lifecycle = .active) :
    (∀ calls : List (Call δ),
      runAll (Appender.step engine) a' calls = runAll (Appender.step engine) a calls) ↔
    ∀ data dt, call = .append data → data.datatype = .ok dt →
      (engine.checkMutable a.dataset).1 = .ok () →
      a.state.pending.setDt dt = a.state.pending := by
  have hlife : a.state.lifecycle = .active := by
    rw [hsound.lifecycle, hfailed]
    rfl
  -- a run of no calls returns the appender it starts with
  have hruns : (∀ calls : List (Call δ), runAll (Appender.step engine) a' calls =
      runAll (Appender.step engine) a calls) ↔ a' = a :=
    ⟨fun h => (Prod.mk.inj (Except.ok.inj (h []))).2, fun h _ => by rw [h]⟩
  -- what a rejected call leaves is the outcome of its buffer
  have hleft : ∀ {outcome : Except Error Unit × BufferState δ × ε},
      a.replied engine false outcome = (reply, a') → ∃ error, outcome.1 = .error error ∧
        outcome.2.1.lifecycle = .active ∧
        (outcome.2.2 = a.dataset → (a' = a ↔ outcome.2.1 = a.state)) := by
    rintro ⟨result, s', e'⟩ h
    cases h
    cases result with
    | ok => exact absurd rfl hres
    | error error =>
      refine ⟨error, rfl, hactive, ?_⟩
      rintro rfl
      cases a
      cases hlive
      simp
  rw [hruns]
  cases call with
  | append data =>
    obtain ⟨⟨result, s', e'⟩, happend, h⟩ := bind_eq_ok.mp hstep
    obtain ⟨error, rfl, hkept, hiff⟩ := hleft (Except.ok.inj h)
    obtain ⟨hdataset, hcase⟩ := BufferState.append_rejected hquery hlife hsound.error happend hkept
    rw [hiff hdataset]
    rcases hcase with ⟨hrefused, rfl⟩ | ⟨hmutable, rfl⟩
    · exact ⟨fun _ _ _ _ _ hmutable => absurd hmutable hrefused, fun _ => rfl⟩
    · constructor
      · rintro heq _ dt ⟨⟩ hdt -
        have hpend := congrArg BufferState.pending heq
        rw [hdt] at hpend
        exact hpend
      · intro hcond
        cases hdt : data.datatype with
        | error => rfl
        | ok dt =>
          show { a.state with pending := a.state.pending.setDt dt } = a.state
          rw [hcond data dt rfl hdt hmutable]
  | appendRaw bytes =>
    obtain ⟨⟨result, s', e'⟩, happend, h⟩ := bind_eq_ok.mp hstep
    obtain ⟨error, rfl, hkept, hiff⟩ := hleft (Except.ok.inj h)
    obtain ⟨hstate, hdataset⟩ := BufferState.appendRaw_rejected hquery hlife happend hkept
    exact iff_of_true ((hiff hdataset).mpr hstate) nofun
  | flush => cases hcall
  | finish => cases hcall
  | drop => cases hcall

/-- Seven elements do not fit six. -/
theorem rejected_append_undone_scripted :
    ∃ reply a', Appender.step scriptedEngine
        ⟨⟨2, 2, false, .fixed 9, .withOptions .new, .active, by decide⟩, ⟨[], 3, false, []⟩, false⟩
        (.appendRaw (List.replicate 14 0)) = .ok (reply, a') ∧
      reply.result = .error BufferState.exceedsMaximum ∧
      runAll (Appender.step scriptedEngine) a' scriptedCalls = runAll (Appender.step scriptedEngine)
        ⟨⟨2, 2, false, .fixed 9, .withOptions .new, .active, by decide⟩, ⟨[], 3, false, []⟩, false⟩
        scriptedCalls := by
  refine ⟨_, _, rfl, rfl, ?_⟩
  refine (rejected_append_undone ⟨fun _ => rfl, fun _ => rfl⟩
    ⟨2, 2, false, .fixed 9, .withOptions .new, .active, by decide⟩
    ⟨rfl, rfl, rfl, rfl, rfl, .inr ⟨rfl, rfl⟩⟩ rfl rfl (.appendRaw (List.replicate 14 0)) rfl rfl
    (fun h => by cases h) rfl).mpr ?_ scriptedCalls
  exact fun _ _ h => by cases h

def typedEngine : AppendEngine ScriptedDataset Bool where
  elementSize := 2
  sessionIsSwmr := scriptedEngine.sessionIsSwmr
  claimForAppender := scriptedEngine.claimForAppender
  checkMutable := scriptedEngine.checkMutable
  geometry := scriptedEngine.geometry
  appendPrebuilt := fun e head =>
    if head.dtConflict then
      (.error (.appendInPlaceUnsupported
        "append mixes element types in one call; use one element type per append"),
        { e with failed := true })
    else scriptedEngine.appendPrebuilt e { head with elemDt := none }
  published := scriptedEngine.published
  length := scriptedEngine.length
  failed := scriptedEngine.failed

/-- After a rejected append of one datatype an append of the other fails, which publishes three
elements otherwise. -/
theorem rejected_append_keeps_datatype :
    ∃ (a a' : Appender ScriptedDataset Bool) (reply : Reply) (later : Call Bool),
      BufferState.Sound typedEngine a.state a.state a.dataset ∧
      a.step typedEngine (.append ⟨.ok false, List.replicate 14 0⟩) = .ok (reply, a') ∧
      reply.result = .error BufferState.exceedsMaximum ∧ a'.state.lifecycle = .active ∧
      (∃ b, a.step typedEngine later = .ok (⟨.ok (), false⟩, b) ∧
        b.dataset.published = [1, 2, 3, 4, 5, 6]) ∧
      ∃ error b, a'.step typedEngine later = .ok (⟨.error error, true⟩, b) ∧
        b.dataset.published = [] := by
  refine ⟨⟨⟨2, 2, false, .fixed 9, .withOptions .new, .active, by decide⟩, ⟨[], 3, false, []⟩, false⟩,
    _, _, .append ⟨.ok true, [1, 2, 3, 4, 5, 6]⟩, ⟨rfl, rfl, rfl, rfl, rfl, .inr ⟨rfl, rfl⟩⟩, rfl, rfl,
    rfl, ⟨_, rfl, rfl⟩, ⟨_, _, rfl, rfl⟩⟩

end Hdf5Pure.Append
