import Mathlib

/-!
# Stateful computations that may fail

A computation takes a state to a result and the next state. A failure keeps the state it was met in.
`Fallible.Holds` states what holds afterwards, apart for results and for failures.
-/

namespace Hdf5Pure

/-- A computation on a state, whose changes stay when it fails. -/
def Fallible (ε σ α : Type) := σ → Except ε α × σ

namespace Fallible

variable {ε σ α β : Type}

/-- Goes on from what a step left, if it succeeded. -/
def andThen (x : Except ε α × σ) (f : α → Fallible ε σ β) : Except ε β × σ :=
  match x with
  | (.ok a, s) => f a s
  | (.error e, s) => (.error e, s)

instance : Monad (Fallible ε σ) where
  pure a := fun s => (.ok a, s)
  bind x f := fun s => andThen (x s) f

/-- Fails and changes nothing. -/
def fail (e : ε) : Fallible ε σ α := fun s => (.error e, s)

/-- A result that does not depend on the state. -/
def lift (r : Except ε α) : Fallible ε σ α := fun s => (r, s)

def read (f : σ → α) : Fallible ε σ α := fun s => (.ok (f s), s)

/-- Changes the state. -/
def modify (f : σ → σ) : Fallible ε σ Unit := fun s => (.ok (), f s)

/-- From a state with `pre`, a result meets `post` with its state, and a failure `err`. -/
def Holds (x : Fallible ε σ α) (pre : σ → Prop) (post : α → σ → Prop) (err : σ → Prop) : Prop :=
  ∀ s, pre s → (∀ a s', x s = (.ok a, s') → post a s') ∧ (∀ e s', x s = (.error e, s') → err s')

variable {x : Fallible ε σ α} {f : α → Fallible ε σ β} {pre : σ → Prop} {post : α → σ → Prop}
  {err : σ → Prop}

lemma Holds.of_fst (hok : ∀ s a, pre s → (x s).1 = .ok a → post a (x s).2)
    (herr : ∀ s e, pre s → (x s).1 = .error e → err (x s).2) : x.Holds pre post err := by
  intro s hs
  refine ⟨fun a s' heq => ?_, fun e s' heq => ?_⟩
  · have h := hok s a hs (by rw [heq])
    rwa [heq] at h
  · have h := herr s e hs (by rw [heq])
    rwa [heq] at h

lemma Holds.pure {a : α} (h : ∀ s, pre s → post a s) :
    (Pure.pure a : Fallible ε σ α).Holds pre post err := by
  intro s hs
  refine ⟨fun a' s' heq => ?_, fun e s' heq => ?_⟩
  · cases heq
    exact h s hs
  · cases heq

lemma Holds.fail {e : ε} : (Fallible.fail e : Fallible ε σ α).Holds err post err := by
  intro s h
  refine ⟨fun a' s' heq => ?_, fun e s' heq => ?_⟩
  · cases heq
  · cases heq
    exact h

lemma Holds.read {g : σ → α} (h : ∀ s, pre s → post (g s) s) :
    (Fallible.read g : Fallible ε σ α).Holds pre post err := by
  intro s hs
  refine ⟨fun a' s' heq => ?_, fun e s' heq => ?_⟩
  · cases heq
    exact h s hs
  · cases heq

/-- **Composition rule.** -/
theorem Holds.bind {mid : α → σ → Prop} {post : β → σ → Prop} (hx : x.Holds pre mid err)
    (hf : ∀ a, (f a).Holds (mid a) post err) : (x >>= f).Holds pre post err := by
  intro s hs
  have hbind : (x >>= f) s = andThen (x s) f := rfl
  obtain ⟨hok, herr⟩ := hx s hs
  rcases hr : x s with ⟨e | a, s₁⟩
  · rw [hbind, hr]
    refine ⟨fun b s' heq => ?_, fun e' s' heq => ?_⟩
    · cases heq
    · cases heq
      exact herr e s₁ hr
  · rw [hbind, hr]
    exact hf a s₁ (hok a s₁ hr)

/-- **Consequence rule.** -/
theorem Holds.imp {pre' : σ → Prop} {post' : α → σ → Prop} {err' : σ → Prop}
    (h : x.Holds pre post err) (hpre : ∀ s, pre' s → pre s)
    (hpost : ∀ a s, post a s → post' a s) (herr : ∀ s, err s → err' s) :
    x.Holds pre' post' err' := by
  intro s hs
  obtain ⟨hok, he⟩ := h s (hpre s hs)
  exact ⟨fun a s' heq => hpost a s' (hok a s' heq), fun e s' heq => herr s' (he e s' heq)⟩

lemma Holds.lift_bind {r : Except ε α} {post : β → σ → Prop}
    (hf : ∀ a, r = .ok a → (f a).Holds pre post err)
    (herr : ∀ e, r = .error e → ∀ s, pre s → err s) :
    (Fallible.lift r >>= f).Holds pre post err := by
  intro s hs
  cases r with
  | error e => exact Holds.fail s (herr e rfl s hs)
  | ok a => exact hf a rfl s hs

lemma Holds.of_and {q : Prop} (h : q → x.Holds pre post err) :
    x.Holds (fun s => pre s ∧ q) post err :=
  fun s hs => h hs.2 s hs.1

end Fallible

end Hdf5Pure
