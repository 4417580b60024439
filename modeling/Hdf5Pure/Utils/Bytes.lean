import Mathlib

/-!
# Bytes and fixed-width numbers

Little-endian and big-endian numbers of a given width in bytes, as file formats store them, and
numbers with digits of a given number of bits.
-/

namespace Hdf5Pure

open List

abbrev Bytes := List UInt8

/-- The number that the bytes denote, least significant byte first. -/
def leNat : Bytes → ℕ
  | [] => 0
  | b :: bs => b.toNat + 256 * leNat bs

/-- The low `width` bytes of `n`, least significant byte first. -/
def leBytes : ℕ → ℕ → Bytes
  | 0, _ => []
  | width + 1, n => UInt8.ofNat n :: leBytes width (n / 256)

@[simp] lemma length_leBytes (width n : ℕ) : (leBytes width n).length = width := by
  induction width generalizing n with
  | zero => rfl
  | succ width ih => rw [leBytes, length_cons, ih]

lemma leNat_lt (bytes : Bytes) : leNat bytes < 256 ^ bytes.length := by
  induction bytes with
  | nil => exact Nat.one_pos
  | cons b bs ih =>
    have hb : b.toNat < 256 := b.toNat_lt
    rw [leNat, length_cons, pow_succ]
    omega

lemma leNat_leBytes (width n : ℕ) : leNat (leBytes width n) = n % 256 ^ width := by
  induction width generalizing n with
  | zero => rw [leBytes, leNat, pow_zero, Nat.mod_one]
  | succ width ih =>
    rw [leBytes, leNat, ih, pow_succ, Nat.mul_comm _ 256, Nat.mod_mul]
    show n % 256 + _ = _
    rfl

lemma leNat_leBytes_of_lt {width n : ℕ} (h : n < 256 ^ width) : leNat (leBytes width n) = n := by
  rw [leNat_leBytes, Nat.mod_eq_of_lt h]

lemma leBytes_leNat (bytes : Bytes) : leBytes bytes.length (leNat bytes) = bytes := by
  induction bytes with
  | nil => rfl
  | cons b bs ih =>
    have hb : b.toNat < 256 := b.toNat_lt
    rw [length_cons, leBytes, leNat]
    congr 1
    · apply UInt8.toNat_inj.mp
      show (b.toNat + 256 * leNat bs) % 256 = b.toNat
      omega
    · rw [show (b.toNat + 256 * leNat bs) / 256 = leNat bs by omega, ih]

lemma leNat_append (a b : Bytes) : leNat (a ++ b) = leNat a + 256 ^ a.length * leNat b := by
  induction a with
  | nil => simp [leNat]
  | cons x xs ih =>
    rw [cons_append, leNat, leNat, ih, length_cons, pow_succ]
    ring

lemma leNat_replicate_zero (n : ℕ) : leNat (replicate n 0) = 0 := by
  induction n with
  | zero => rfl
  | succ n ih => rw [replicate_succ, leNat, ih]; rfl

/-! ## Big-endian numbers -/

/-- The number that the bytes denote, most significant byte first. -/
def beNat (bytes : Bytes) : ℕ := leNat bytes.reverse

/-- The low `width` bytes of `n`, most significant byte first. -/
def beBytes (width n : ℕ) : Bytes := (leBytes width n).reverse

@[simp] lemma length_beBytes (width n : ℕ) : (beBytes width n).length = width := by
  rw [beBytes, length_reverse, length_leBytes]

lemma beNat_beBytes (width n : ℕ) : beNat (beBytes width n) = n % 256 ^ width := by
  rw [beNat, beBytes, reverse_reverse, leNat_leBytes]

lemma beNat_lt (bytes : Bytes) : beNat bytes < 256 ^ bytes.length := by
  have := leNat_lt bytes.reverse
  rwa [length_reverse] at this

lemma beNat_append (a b : Bytes) : beNat (a ++ b) = beNat a * 256 ^ b.length + beNat b := by
  rw [beNat, reverse_append, leNat_append, length_reverse, beNat, beNat]
  ring

lemma beNat_singleton (b : UInt8) : beNat [b] = b.toNat := by
  show b.toNat + 256 * 0 = b.toNat
  omega

lemma beNat_append_zeros (a : Bytes) (n : ℕ) : beNat (a ++ replicate n 0) = beNat a * 256 ^ n := by
  rw [beNat_append, length_replicate]
  have : beNat (replicate n 0) = 0 := by
    rw [beNat, reverse_replicate, leNat_replicate_zero]
  omega

/-- A slice of bytes is a range of the number's digits. -/
lemma beNat_slice {l : Bytes} {i k : ℕ} (h : i + k ≤ l.length) :
    beNat ((l.drop i).take k) = beNat l / 256 ^ (l.length - i - k) % 256 ^ k := by
  have hsplit : l = l.take i ++ (l.drop i).take k ++ l.drop (i + k) := by
    rw [append_assoc, ← drop_drop, take_append_drop, take_append_drop]
  have hlow : (l.drop (i + k)).length = l.length - i - k := by
    rw [length_drop]
    omega
  have hmid : ((l.drop i).take k).length = k := by
    rw [length_take, length_drop]
    omega
  have hnum : beNat l = (beNat (l.take i) * 256 ^ k + beNat ((l.drop i).take k)) *
      256 ^ (l.length - i - k) + beNat (l.drop (i + k)) := by
    conv_lhs => rw [hsplit, beNat_append, beNat_append, hlow, hmid]
  rw [hnum, Nat.add_comm, Nat.add_mul_div_right _ _ (by positivity),
    Nat.div_eq_of_lt (by rw [← hlow]; exact beNat_lt _), Nat.zero_add, Nat.add_comm,
    Nat.add_mul_mod_self_right, Nat.mod_eq_of_lt]
  have := beNat_lt ((l.drop i).take k)
  rwa [hmid] at this

/-! ## Digits of a fixed number of bits -/

/-- The number with these digits of `m` bits, most significant digit first. -/
def packNat (m : ℕ) (digits : List ℕ) : ℕ := digits.foldl (fun acc v => acc * 2 ^ m + v) 0

lemma packNat_append_singleton (m : ℕ) (digits : List ℕ) (v : ℕ) :
    packNat m (digits ++ [v]) = packNat m digits * 2 ^ m + v := by
  rw [packNat, foldl_append]
  rfl

lemma packNat_div {m : ℕ} (a : List ℕ) {b : List ℕ} (hb : ∀ v ∈ b, v < 2 ^ m) :
    packNat m (a ++ b) / 2 ^ (m * b.length) = packNat m a := by
  -- the digits of `b` go from the end
  induction b using reverseRecOn with
  | nil => simp
  | append_singleton b v ih =>
    have hv := hb v (by simp)
    rw [← append_assoc, packNat_append_singleton, length_append, length_singleton,
      Nat.mul_succ, Nat.add_comm (m * b.length), pow_add, ← Nat.div_div_eq_div_mul,
      Nat.add_comm, Nat.add_mul_div_right _ _ (by positivity), Nat.div_eq_of_lt hv, Nat.zero_add]
    exact ih fun w hw => hb w (mem_append_left _ hw)

end Hdf5Pure
