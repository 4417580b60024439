import Mathlib

/-!
# Panics and checked 64-bit arithmetic

A function that may stop in an `expect`, an `assert!` or a debug assertion returns a `Checked`
value, so that "no assertion fails" is the statement that the result is `.ok`. Machine words
are naturals, and every operation that can leave the `2 ^ 64` range is a checked one.
-/

namespace Hdf5Pure

/-- A computation that returns passes each of its stages. -/
lemma bind_eq_ok {ε α β : Type} {x : Except ε α} {f : α → Except ε β} {b : β} :
    x >>= f = .ok b ↔ ∃ a, x = .ok a ∧ f a = .ok b := by
  cases x with
  | error e => exact ⟨nofun, fun ⟨_, h, _⟩ => (nomatch h)⟩
  | ok a => exact ⟨fun h => ⟨a, rfl, h⟩, fun ⟨_, h, hf⟩ => Except.ok.inj h ▸ hf⟩

lemma toOption_eq_some {ε α : Type} {x : Except ε α} {a : α} : x.toOption = some a ↔ x = .ok a := by
  cases x <;> simp [Except.toOption]

/-- A computation behind an early error returns only past the guard. -/
lemma ite_error_eq_ok {ε α : Type} {c : Prop} [Decidable c] {e : ε} {x : Except ε α} {a : α} :
    (if c then .error e else x) = .ok a ↔ ¬ c ∧ x = .ok a := by
  by_cases h : c
  · rw [if_pos h]
    exact ⟨fun hx => (nomatch hx), fun hx => absurd h hx.1⟩
  · rw [if_neg h]
    exact ⟨fun hx => ⟨h, hx⟩, And.right⟩

lemma ite_else_error_eq_ok {ε α : Type} {c : Prop} [Decidable c] {e : ε} {x : Except ε α} {a : α} :
    (if c then x else .error e) = .ok a ↔ c ∧ x = .ok a := by
  by_cases h : c
  · simp [h]
  · simp [h]

/-- A computation over a list that returns does so on each element. -/
lemma except_mapM_mem {ε α β : Type} {f : α → Except ε β} {l : List α} {out : List β}
    (h : l.mapM f = .ok out) : ∀ a ∈ l, ∃ b, f a = .ok b := by
  induction l generalizing out with
  | nil => simp
  | cons a l ih =>
    rw [List.mapM_cons] at h
    obtain ⟨b, hb, h⟩ := bind_eq_ok.mp h
    obtain ⟨bs, hbs, -⟩ := bind_eq_ok.mp h
    exact List.forall_mem_cons.mpr ⟨⟨b, hb⟩, ih hbs⟩

/-- A failed assertion, with its message. -/
structure Panic where
  message : String
deriving DecidableEq, Repr

/-- A computation that returns a value or stops at a failed assertion. -/
abbrev Checked (α : Type) := Except Panic α

namespace Checked

variable {α β : Type}

/-- The value of `o`, or a panic with `message`. -/
def expect (o : Option α) (message : String) : Checked α :=
  match o with
  | some a => .ok a
  | none => .error ⟨message⟩

/-- A panic with `message` unless `c` holds. -/
def assert (c : Bool) (message : String) : Checked Unit :=
  if c then .ok () else .error ⟨message⟩

@[simp] lemma expect_some (a : α) (message : String) : expect (some a) message = .ok a := rfl

lemma assert_of {c : Bool} (h : c = true) (message : String) : assert c message = .ok () := by
  rw [assert, if_pos h]

@[simp] lemma ok_bind (a : α) (f : α → Checked β) : (Except.ok a >>= f : Checked β) = f a := rfl

end Checked

/-! ## Checked words -/

def checkedAdd (a b : ℕ) : Option ℕ :=
  if a + b < 2 ^ 64 then some (a + b) else none

def checkedSub (a b : ℕ) : Option ℕ :=
  if b ≤ a then some (a - b) else none

def checkedMul (a b : ℕ) : Option ℕ :=
  if a * b < 2 ^ 64 then some (a * b) else none

/-- `u64::checked_next_multiple_of`: the least multiple of `m` at or above `a`. -/
def checkedNextMultipleOf (a m : ℕ) : Option ℕ :=
  if m = 0 then none
  else if a % m = 0 then some a
  else checkedAdd a (m - a % m)

lemma checkedAdd_eq_some {a b c : ℕ} : checkedAdd a b = some c ↔ a + b < 2 ^ 64 ∧ a + b = c := by
  rw [checkedAdd, Option.ite_none_right_eq_some, Option.some_inj]

lemma checkedAdd_of_lt {a b : ℕ} (h : a + b < 2 ^ 64) : checkedAdd a b = some (a + b) := if_pos h

lemma checkedSub_eq_some {a b c : ℕ} : checkedSub a b = some c ↔ b ≤ a ∧ a - b = c := by
  rw [checkedSub, Option.ite_none_right_eq_some, Option.some_inj]

lemma checkedMul_eq_some {a b c : ℕ} : checkedMul a b = some c ↔ a * b < 2 ^ 64 ∧ a * b = c := by
  rw [checkedMul, Option.ite_none_right_eq_some, Option.some_inj]

/-- A returned multiple is the least one at or above the argument. -/
lemma checkedNextMultipleOf_spec {a m c : ℕ} (h : checkedNextMultipleOf a m = some c) :
    0 < m ∧ m ∣ c ∧ a ≤ c ∧ c < a + m ∧ (a < 2 ^ 64 → c < 2 ^ 64) := by
  unfold checkedNextMultipleOf at h
  split at h
  · cases h
  rename_i hm
  have hpos : 0 < m := Nat.pos_of_ne_zero hm
  split at h
  · rename_i hz
    cases h
    exact ⟨hpos, Nat.dvd_of_mod_eq_zero hz, by omega, by omega, id⟩
  obtain ⟨hlt, rfl⟩ := checkedAdd_eq_some.mp h
  have hmod : a % m < m := Nat.mod_lt _ hpos
  refine ⟨hpos, ?_, by omega, by omega, fun _ => hlt⟩
  -- `a + (m - a % m)` is `m` times one more than the quotient
  refine ⟨a / m + 1, ?_⟩
  have := Nat.div_add_mod a m
  rw [Nat.mul_add, Nat.mul_one]
  omega

/-- Below a representable multiple the next multiple exists. -/
lemma checkedNextMultipleOf_of_le {a b m : ℕ} (hm : 0 < m) (hab : a ≤ b) (hb : m ∣ b)
    (hlt : b < 2 ^ 64) : ∃ c, checkedNextMultipleOf a m = some c ∧ c ≤ b := by
  unfold checkedNextMultipleOf
  rw [if_neg hm.ne']
  by_cases hzero : a % m = 0
  · exact ⟨a, if_pos hzero, hab⟩
  have hmod : a % m < m := Nat.mod_lt _ hm
  have hdvd : m ∣ a + (m - a % m) := by
    refine ⟨a / m + 1, ?_⟩
    have := Nat.div_add_mod a m
    rw [Nat.mul_add, Nat.mul_one]
    omega
  have hle : a + (m - a % m) ≤ b := Nat.le_of_lt_add_of_dvd (by omega) hdvd hb
  exact ⟨a + (m - a % m), by rw [if_neg hzero, checkedAdd_eq_some]; exact ⟨by omega, rfl⟩, hle⟩

end Hdf5Pure
