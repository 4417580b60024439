import Hdf5Pure.Utils.Checked

/-!
# Runs of a machine whose steps may panic

A machine is a function `step : σ → ω → Checked (ρ × σ)`: the state and an operation give a result
and the next state, or a panic. The rules below lift what one step guarantees to whole runs.
-/

namespace Hdf5Pure

section

variable {σ ω ρ : Type} (step : σ → ω → Checked (ρ × σ)) (guard : σ → ω → Prop)

/-- Applies the operations in order and collects their results. -/
def runAll : σ → List ω → Checked (List ρ × σ)
  | s, [] => .ok ([], s)
  | s, op :: ops => do
    let (r, s) ← step s op
    let (rs, s) ← runAll s ops
    .ok (r :: rs, s)

/-- Every operation meets `guard` in the state it is applied to. -/
def AllowedRun : σ → List ω → Prop
  | _, [] => True
  | s, op :: ops => guard s op ∧ ∀ r s', step s op = .ok (r, s') → AllowedRun s' ops

/-- The results and states of a run, with `effect` at every step. -/
inductive Trace (effect : σ → ω → ρ → σ → Prop) : σ → List ω → List ρ → σ → Prop
  | nil (s : σ) : Trace effect s [] [] s
  | cons {s s' s'' : σ} {op : ω} {r : ρ} {ops : List ω} {rs : List ρ} (head : effect s op r s')
      (tail : Trace effect s' ops rs s'') : Trace effect s (op :: ops) (r :: rs) s''

lemma Trace.imp {effect effect' : σ → ω → ρ → σ → Prop}
    (h : ∀ s op r s', effect s op r s' → effect' s op r s') {s s' : σ} {ops : List ω} {rs : List ρ}
    (ht : Trace effect s ops rs s') : Trace effect' s ops rs s' := by
  induction ht with
  | nil s => exact .nil s
  | cons head tail ih => exact .cons (h _ _ _ _ head) ih

variable {step guard}

lemma runAll_cons {s s' : σ} {op : ω} {r : ρ} (h : step s op = .ok (r, s')) (ops : List ω) :
    runAll step s (op :: ops) = (do
      let (rs, s'') ← runAll step s' ops
      .ok (r :: rs, s'')) := by
  simp only [runAll, h, Checked.ok_bind]

lemma AllowedRun.cons {s s' : σ} {op : ω} {r : ρ} {ops : List ω} (h : step s op = .ok (r, s'))
    (hop : guard s op) (hops : AllowedRun step guard s' ops) :
    AllowedRun step guard s (op :: ops) := by
  refine ⟨hop, fun r₁ s₁ h₁ => ?_⟩
  cases h.symm.trans h₁
  exact hops

lemma AllowedRun.of_always (h : ∀ s op, guard s op) :
    ∀ (ops : List ω) (s : σ), AllowedRun step guard s ops
  | [], _ => trivial
  | op :: ops, s => ⟨h s op, fun _ s' _ => of_always h ops s'⟩

/-- **Invariant rule.** If an allowed step from a state with the invariant returns, keeps the
invariant and has an effect, then an allowed run returns, keeps it and has the effect throughout. -/
theorem AllowedRun.trace (inv : σ → Prop) {effect : σ → ω → ρ → σ → Prop}
    (hstep : ∀ s op, inv s → guard s op →
      ∃ r s', step s op = .ok (r, s') ∧ inv s' ∧ effect s op r s')
    {s : σ} {ops : List ω} (hinv : inv s) (hrun : AllowedRun step guard s ops) :
    ∃ rs s', runAll step s ops = .ok (rs, s') ∧ inv s' ∧
      Trace (fun s op r s' => inv s' ∧ effect s op r s') s ops rs s' := by
  induction ops generalizing s with
  | nil => exact ⟨[], s, rfl, hinv, .nil s⟩
  | cons op ops ih =>
    obtain ⟨r, s', hs, hinv', heff⟩ := hstep s op hinv hrun.1
    obtain ⟨rs, s'', hrs, hinv'', htrace⟩ := ih hinv' (hrun.2 r s' hs)
    exact ⟨r :: rs, s'', by simp [runAll_cons hs, hrs], hinv'', .cons ⟨hinv', heff⟩ htrace⟩

/-- The invariant rule without effects. -/
lemma AllowedRun.invariant (inv : σ → Prop)
    (hstep : ∀ s op, inv s → guard s op → ∃ r s', step s op = .ok (r, s') ∧ inv s')
    {s : σ} {ops : List ω} (hinv : inv s) (hrun : AllowedRun step guard s ops) :
    ∃ rs s', runAll step s ops = .ok (rs, s') ∧ inv s' := by
  induction ops generalizing s with
  | nil => exact ⟨[], s, rfl, hinv⟩
  | cons op ops ih =>
    obtain ⟨r, s', hs, hinv'⟩ := hstep s op hinv hrun.1
    obtain ⟨rs, s'', hrs, hinv''⟩ := ih hinv' (hrun.2 r s' hs)
    exact ⟨r :: rs, s'', by simp [runAll_cons hs, hrs], hinv''⟩

end

section

variable {σ τ ω ρ : Type} {stepA : σ → ω → Checked (ρ × σ)} {stepB : τ → ω → Checked (ρ × τ)}
  {guard : σ → ω → Prop}

/-- **Simulation rule.** If from related states an allowed operation returns the same result on
both machines and leaves them related, then so does every allowed run. -/
theorem AllowedRun.simulates (rel : σ → τ → Prop)
    (hstep : ∀ s t op, rel s t → guard s op →
      ∃ r s' t', stepA s op = .ok (r, s') ∧ stepB t op = .ok (r, t') ∧ rel s' t')
    {s : σ} {t : τ} {ops : List ω} (hrel : rel s t) (hrun : AllowedRun stepA guard s ops) :
    ∃ rs s' t', runAll stepA s ops = .ok (rs, s') ∧ runAll stepB t ops = .ok (rs, t') ∧
      rel s' t' := by
  induction ops generalizing s t with
  | nil => exact ⟨[], s, t, rfl, rfl, hrel⟩
  | cons op ops ih =>
    obtain ⟨r, s', t', hs, ht, hrel'⟩ := hstep s t op hrel hrun.1
    obtain ⟨rs, s'', t'', hrs, hrt, hrel''⟩ := ih hrel' (hrun.2 r s' hs)
    exact ⟨r :: rs, s'', t'', by simp [runAll_cons hs, hrs], by simp [runAll_cons ht, hrt], hrel''⟩

end

end Hdf5Pure
