import Mathlib

/-!
# 64-bit words as natural numbers

A word is a `Nat` below `2 ^ 64`. Plain additions and subtractions of a release
build wrap, the checked and saturating ones do not.
-/

namespace Word

def size : Nat := 2 ^ 64

def wrapping_add (a b : Nat) : Nat := (a + b) % size

def wrapping_sub (a b : Nat) : Nat := (a + size - b) % size

def wrapping_mul (a b : Nat) : Nat := a * b % size

def checked_add (a b : Nat) : Option Nat := if a + b < size then some (a + b) else none

def checked_sub (a b : Nat) : Option Nat := if b ≤ a then some (a - b) else none

def checked_mul (a b : Nat) : Option Nat := if a * b < size then some (a * b) else none

def saturating_add (a b : Nat) : Nat := min (a + b) (size - 1)

def div_ceil (a b : Nat) : Nat := a / b + if a % b > 0 then 1 else 0

def is_power_of_two (n : Nat) : Bool := n ≠ 0 ∧ n &&& (n - 1) = 0

theorem wrapping_add_of_lt {a b : Nat} (h : a + b < size) : wrapping_add a b = a + b :=
  Nat.mod_eq_of_lt h

theorem wrapping_sub_of_le {a b : Nat} (hb : b ≤ a) (ha : a < size) : wrapping_sub a b = a - b := by
  unfold wrapping_sub
  rw [show a + size - b = a - b + size by omega, Nat.add_mod_right]
  exact Nat.mod_eq_of_lt (by omega)

theorem wrapping_mul_of_lt {a b : Nat} (h : a * b < size) : wrapping_mul a b = a * b := Nat.mod_eq_of_lt h

/-- A wrapped sum that is no smaller than one of its parts did not wrap. -/
theorem add_eq_of_wrapping_add {a b c : Nat} (h : wrapping_add a b = c) (ha : a ≤ c) (hb : b < size)
    (hc : c < size) : a + b = c := by
  unfold wrapping_add at h
  by_cases hlt : a + b < size
  · rwa [Nat.mod_eq_of_lt hlt] at h
  · rw [Nat.mod_eq_sub_mod (by omega), Nat.mod_eq_of_lt (by omega)] at h
    omega

theorem saturating_add_of_lt {a b : Nat} (h : a + b < size) : saturating_add a b = a + b := by
  unfold saturating_add; omega

theorem checked_add_eq_some {a b c : Nat} (h : checked_add a b = some c) :
    c = a + b ∧ a + b < size := by
  unfold checked_add at h
  split at h <;> simp_all

theorem checked_mul_eq_some {a b c : Nat} (h : checked_mul a b = some c) : c = a * b ∧ a * b < size := by
  unfold checked_mul at h
  split at h <;> simp_all

theorem lt_div_ceil {a b g : Nat} (hb : 0 < b) : g < div_ceil a b ↔ g * b < a := by
  unfold div_ceil
  have hdiv := Nat.div_add_mod a b
  have hmod := Nat.mod_lt a hb
  rw [Nat.mul_comm] at hdiv
  constructor
  · intro h
    have hle : g * b ≤ a / b * b := by
      apply Nat.mul_le_mul_right
      split at h <;> omega
    split at h
    · omega
    · have hlt : (g + 1) * b ≤ a / b * b := Nat.mul_le_mul_right b (by omega)
      have hexp : (g + 1) * b = g * b + b := by ring
      omega
  · intro h
    by_contra hge
    have hle : (a / b + if a % b > 0 then 1 else 0) * b ≤ g * b := Nat.mul_le_mul_right b (by omega)
    split at hle
    · have hexp : (a / b + 1) * b = a / b * b + b := by ring
      omega
    · have hexp : (a / b + 0) * b = a / b * b := by ring
      omega

/-! ## Alignment -/

/-- `x & !(a - 1)` on words. -/
def clear_low (x a : Nat) : Nat := x &&& (size - 1 - wrapping_sub a 1)

/-- `(x + a - 1) & !(a - 1)` on words. -/
def align_up (x a : Nat) : Nat := clear_low (wrapping_sub (wrapping_add x a) 1) a

theorem clear_low_two_pow {x k : Nat} (hx : x < size) (hk : k < 64) :
    clear_low x (2 ^ k) = x / 2 ^ k * 2 ^ k := by
  have hpos : 0 < 2 ^ k := Nat.two_pow_pos k
  have hlt : 2 ^ k < size := Nat.pow_lt_pow_right (by omega) hk
  have hmask : size - 1 - wrapping_sub (2 ^ k) 1 = 2 ^ 64 - (2 ^ k - 1 + 1) := by
    rw [wrapping_sub_of_le hpos hlt]; unfold size at *; omega
  rw [clear_low, hmask]
  apply Nat.eq_of_testBit_eq
  intro i
  rw [Nat.testBit_and, Nat.testBit_two_pow_sub_succ (by unfold size at hlt; omega),
    Nat.testBit_two_pow_sub_one, Nat.testBit_mul_two_pow, Nat.testBit_div_two_pow]
  by_cases hi : i < 64
  · by_cases hki : k ≤ i
    · simp [hi, hki, Nat.not_lt.mpr hki]
    · simp [hki, Nat.lt_of_not_le hki]
  · -- Bits above the word are zero on both sides.
    have hbig : x < 2 ^ i := lt_of_lt_of_le hx (Nat.pow_le_pow_right (by omega) (by omega))
    simp only [hi, decide_false, Bool.false_and, Bool.and_false]
    by_cases hki : k ≤ i
    · simp [hki, Nat.testBit_lt_two_pow hbig]
    · simp [hki]

/-- The aligned address is the least multiple of the alignment at or above `x`. -/
theorem align_up_spec {x k : Nat} (hk : k < 64) (h : x + 2 ^ k - 1 < size) :
    x ≤ align_up x (2 ^ k) ∧ align_up x (2 ^ k) ≤ x + 2 ^ k - 1 ∧
      align_up x (2 ^ k) % 2 ^ k = 0 := by
  have hpos : 0 < 2 ^ k := Nat.two_pow_pos k
  have hsum : wrapping_sub (wrapping_add x (2 ^ k)) 1 = x + 2 ^ k - 1 := by
    by_cases hlt : x + 2 ^ k < size
    · rw [wrapping_add_of_lt hlt, wrapping_sub_of_le (by omega) hlt]
    · have : x + 2 ^ k = size := by omega
      rw [wrapping_add, this, Nat.mod_self]
      unfold wrapping_sub
      rw [Nat.zero_add]
      exact Nat.mod_eq_of_lt (by unfold size; omega)
  rw [align_up, hsum, clear_low_two_pow h hk]
  refine ⟨?_, Nat.div_mul_le_self _ _, Nat.mul_mod_left _ _⟩
  have hdiv := Nat.div_add_mod (x + 2 ^ k - 1) (2 ^ k)
  have hmod := Nat.mod_lt (x + 2 ^ k - 1) hpos
  rw [Nat.mul_comm] at hdiv
  omega

-- From here on the lemmas above say what these are. Unfolding them is slow.
attribute [irreducible] size wrapping_add wrapping_sub align_up

end Word
