import Mathlib

/-!
# Literals and back references

A token stream in the manner of LZ77: a token either appends values or repeats values that the output
already has. A repetition may reach into what it appends, so it is defined one value at a time.
-/

namespace Hdf5Pure.Lz77

open List

variable {α : Type*}

inductive Token (α : Type*) where
  | literals (values : List α)
  | copy (distance len : ℕ)
deriving DecidableEq, Repr

/-- Appends `len` values, the first of which is the one at `start`. -/
def copyFrom (out : List α) (start : ℕ) : ℕ → List α
  | 0 => out
  | len + 1 =>
    match out[start]? with
    | some a => copyFrom (out ++ [a]) (start + 1) len
    | none => out

lemma copyFrom_succ {out : List α} {start : ℕ} (h : start < out.length) (len : ℕ) :
    copyFrom out start (len + 1) = copyFrom (out ++ [out.get ⟨start, h⟩]) (start + 1) len := by
  rw [copyFrom, getElem?_eq_getElem h]
  rfl

/-- A repetition that ends within the output appends a slice of it. -/
lemma copyFrom_of_le {out : List α} {start len : ℕ} (h : start + len ≤ out.length) :
    copyFrom out start len = out ++ (out.drop start).take len := by
  induction len generalizing out start with
  | zero => rw [copyFrom, take_zero, append_nil]
  | succ len ih =>
    rw [copyFrom_succ (by omega), ih (by rw [length_append]; exact Nat.le_add_right_of_le (by omega))]
    rw [drop_append_of_le_length (by omega), append_assoc,
      take_append_of_le_length (by rw [length_drop]; omega),
      drop_eq_getElem_cons (show start < out.length by omega), take_succ_cons]
    rfl

/-- Repeating values that agree with those that follow extends a beginning of `data`. -/
lemma copyFrom_take {data : List α} {start ip len : ℕ} (hstart : start < ip)
    (hle : ip + len ≤ data.length) (hagree : ∀ k < len, data[start + k]? = data[ip + k]?) :
    copyFrom (data.take ip) start len = data.take (ip + len) := by
  induction len generalizing start ip with
  | zero => rfl
  | succ len ih =>
    have hlt : start < (data.take ip).length := by
      rw [length_take]
      omega
    have hget : (data.take ip).get ⟨start, hlt⟩ = data.get ⟨ip, by omega⟩ := by
      have h0 := hagree 0 (by omega)
      rw [Nat.add_zero, Nat.add_zero, getElem?_eq_getElem (by omega),
        getElem?_eq_getElem (by omega)] at h0
      rw [get_eq_getElem, getElem_take, get_eq_getElem]
      exact Option.some.inj h0
    rw [copyFrom_succ hlt, hget, get_eq_getElem, take_concat_get', ih (by omega) (by omega)]
    · congr 1
      omega
    · intro k hk
      have := hagree (k + 1) (by omega)
      rwa [show start + (k + 1) = start + 1 + k by omega,
        show ip + (k + 1) = ip + 1 + k by omega] at this

lemma length_copyFrom {out : List α} {start len : ℕ} (h : start < out.length) :
    (copyFrom out start len).length = out.length + len := by
  induction len generalizing out start with
  | zero => rfl
  | succ len ih =>
    rw [copyFrom_succ h, ih (by rw [length_append]; exact Nat.succ_lt_succ h),
      length_append, length_singleton]
    omega

/-- The tokens turn `out` into `data`, and every repetition starts within the output. -/
inductive Expands : List α → List (Token α) → List α → Prop
  | nil (out : List α) : Expands out [] out
  | literals {out data values : List α} {tokens : List (Token α)}
      (h : Expands (out ++ values) tokens data) : Expands out (.literals values :: tokens) data
  | copy {out data : List α} {distance len : ℕ} {tokens : List (Token α)} (hpos : 0 < distance)
      (hle : distance ≤ out.length)
      (h : Expands (copyFrom out (out.length - distance) len) tokens data) :
      Expands out (.copy distance len :: tokens) data

lemma Expands.append {out mid data : List α} {tokens tokens' : List (Token α)}
    (h : Expands out tokens mid) (h' : Expands mid tokens' data) :
    Expands out (tokens ++ tokens') data := by
  induction h with
  | nil out => exact h'
  | literals _ ih => exact .literals (ih h')
  | copy hpos hle _ ih => exact .copy hpos hle (ih h')

/-- The number of values that a token appends. -/
def Token.size : Token α → ℕ
  | .literals values => values.length
  | .copy _ len => len

lemma Expands.length_eq {out data : List α} {tokens : List (Token α)}
    (h : Expands out tokens data) : data.length = out.length + (tokens.map Token.size).sum := by
  induction h with
  | nil out => rfl
  | literals _ ih =>
    rw [ih, length_append, map_cons, sum_cons, Token.size]
    omega
  | copy hpos hle _ ih =>
    rw [ih, length_copyFrom (by omega), map_cons, sum_cons, Token.size]
    omega

end Hdf5Pure.Lz77
