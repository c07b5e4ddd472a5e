import Mathlib

/-!
# Cyclic redundancy checks

A register takes a message in bit by bit, the lowest first, and adds a polynomial when a one is shifted out.
The step is linear in exclusive or and loses nothing, as long as the polynomial reaches the top of the
register. So damage within as many bits as the register is wide always shows.
-/

namespace Crc

def shift (poly r : Nat) : Nat := if r % 2 = 1 then r / 2 ^^^ poly else r / 2

def feed (poly r : Nat) (bits : List Bool) : Nat := bits.foldl (fun r b => shift poly (r ^^^ b.toNat)) r

/-- The number with these bits, the lowest first. -/
def number : List Bool → Nat
  | [] => 0
  | b :: bits => b.toNat + 2 * number bits

/-- The lowest bits of a number. -/
def lowBits : Nat → Nat → List Bool
  | 0, _ => []
  | k + 1, n => decide (n % 2 = 1) :: lowBits k (n / 2)

/-- The lists are of one length and agree outside some `w` places in a row. -/
def Within {α : Type} (w : Nat) (a b : List α) : Prop :=
  a.length = b.length ∧ ∃ p, ∀ i, i < p ∨ p + w ≤ i → a[i]? = b[i]?

variable {poly w r s : Nat}

/-! ## Bits of a number -/

@[simp] theorem length_lowBits (k n : Nat) : (lowBits k n).length = k := by
  induction k generalizing n with
  | zero => rfl
  | succ k ih => simp [lowBits, ih]

theorem number_lowBits (k n : Nat) : number (lowBits k n) = n % 2 ^ k := by
  induction k generalizing n with
  | zero => simp [lowBits, number, Nat.mod_one]
  | succ k ih =>
    rw [lowBits, number, ih, pow_succ', Nat.mod_mul]
    have hbit : (decide (n % 2 = 1)).toNat = n % 2 := by
      rcases Nat.mod_two_eq_zero_or_one n with h | h <;> simp [h]
    rw [hbit]

theorem number_lt (bits : List Bool) : number bits < 2 ^ bits.length := by
  induction bits with
  | nil => simp [number]
  | cons b bits ih =>
    have hb := Bool.toNat_le b
    rw [number, List.length_cons, pow_succ']
    omega

theorem number_inj : ∀ {a b : List Bool}, a.length = b.length → number a = number b → a = b
  | [], [], _, _ => rfl
  | x :: a, y :: b, hlen, h => by
    have hx := Bool.toNat_le x
    have hy := Bool.toNat_le y
    rw [number, number] at h
    have hbit : x.toNat = y.toNat := by omega
    have hxy : x = y := by
      revert hbit
      cases x <;> cases y <;> decide
    have htail : a = b := number_inj (by simpa using hlen) (by omega)
    rw [hxy, htail]

/-! ## The step -/

theorem shift_xor (r s : Nat) : shift poly (r ^^^ s) = shift poly r ^^^ shift poly s := by
  have hodd : (r ^^^ s) % 2 = 1 ↔ ¬ (r % 2 = 1 ↔ s % 2 = 1) := Nat.xor_mod_two_eq_one
  unfold shift
  by_cases hr : r % 2 = 1 <;> by_cases hs : s % 2 = 1 <;>
    simp only [hodd, hr, hs, iff_true, iff_false, not_true_eq_false, not_false_eq_true, if_true, if_false,
      Nat.xor_div_two]
  · rw [Nat.xor_comm (s / 2) poly, Nat.xor_assoc, ← Nat.xor_assoc poly, Nat.xor_self, Nat.zero_xor]
  · rw [Nat.xor_assoc, Nat.xor_assoc, Nat.xor_comm poly]
  · rw [Nat.xor_assoc]

theorem shift_double (n : Nat) : shift poly (2 * n) = n := by
  rw [shift, if_neg (by omega)]
  omega

theorem shift_lt (hp : poly < 2 ^ w) (hr : r < 2 ^ w) : shift poly r < 2 ^ w := by
  unfold shift
  split
  · exact Nat.xor_lt_two_pow (by omega) hp
  · omega

/-- The top bit of the register says whether the polynomial was added. -/
theorem testBit_shift (top : poly.testBit w = true) (hr : r < 2 ^ (w + 1)) :
    (shift poly r).testBit w = decide (r % 2 = 1) := by
  have hhalf : (r / 2).testBit w = false := Nat.testBit_lt_two_pow (by rw [pow_succ] at hr; omega)
  unfold shift
  split
  · rename_i h
    rw [Nat.testBit_xor, hhalf, top, h]
    rfl
  · rename_i h
    rw [hhalf, decide_eq_false h]

theorem shift_inj (top : poly.testBit w = true) (hr : r < 2 ^ (w + 1)) (hs : s < 2 ^ (w + 1))
    (h : shift poly r = shift poly s) : r = s := by
  have hpar : decide (r % 2 = 1) = decide (s % 2 = 1) := by
    rw [← testBit_shift top hr, ← testBit_shift top hs, h]
  have hodd : r % 2 = 1 ↔ s % 2 = 1 := decide_eq_decide.mp hpar
  unfold shift at h
  by_cases hr1 : r % 2 = 1
  · rw [if_pos hr1, if_pos (hodd.mp hr1)] at h
    have hhalf := Nat.xor_left_injective h
    omega
  · rw [if_neg hr1, if_neg (fun hs1 => hr1 (hodd.mpr hs1))] at h
    omega

/-! ## Messages -/

theorem feed_append (a b : List Bool) : feed poly r (a ++ b) = feed poly (feed poly r a) b :=
  List.foldl_append

theorem iterate_shift_inj (hp : poly < 2 ^ (w + 1)) (top : poly.testBit w = true) {k : Nat}
    (hr : r < 2 ^ (w + 1)) (hs : s < 2 ^ (w + 1)) (h : (shift poly)^[k] r = (shift poly)^[k] s) : r = s := by
  induction k generalizing r s with
  | zero => exact h
  | succ k ih => exact shift_inj top hr hs (ih (shift_lt hp hr) (shift_lt hp hs) h)

/-- A message may be added to the register as a whole before the shifts. -/
theorem feed_eq (r : Nat) (bits : List Bool) :
    feed poly r bits = (shift poly)^[bits.length] (r ^^^ number bits) := by
  induction bits generalizing r with
  | nil => simp [feed, number]
  | cons b bits ih =>
    have hsum : r ^^^ number (b :: bits) = r ^^^ b.toNat ^^^ 2 * number bits := by
      have hb : b.toNat + 2 * number bits = b.toNat ^^^ 2 * number bits := by
        cases b with
        | false => simp
        | true =>
          rw [Bool.toNat_true, Nat.xor_comm, Nat.xor_one_of_even ⟨number bits, by omega⟩]
          omega
      rw [number, hb, Nat.xor_assoc]
    rw [List.length_cons, Function.iterate_succ_apply, hsum, shift_xor, shift_double]
    exact ih _

theorem feed_lt (hp : poly < 2 ^ w) (hr : r < 2 ^ w) {bits : List Bool} (hbits : ∀ b ∈ bits, b.toNat < 2 ^ w) :
    feed poly r bits < 2 ^ w := by
  induction bits generalizing r with
  | nil => exact hr
  | cons b bits ih =>
    refine ih (shift_lt hp (Nat.xor_lt_two_pow hr ?_)) fun c hc => hbits c (List.mem_cons_of_mem _ hc)
    exact hbits b List.mem_cons_self

theorem feed_inj (hp : poly < 2 ^ (w + 1)) (top : poly.testBit w = true) {bits : List Bool}
    (hr : r < 2 ^ (w + 1)) (hs : s < 2 ^ (w + 1)) (h : feed poly r bits = feed poly s bits) : r = s := by
  induction bits generalizing r s with
  | nil => exact h
  | cons b bits ih =>
    have hb : b.toNat < 2 ^ (w + 1) := by
      have := Bool.toNat_le b
      have := Nat.one_lt_two_pow (n := w + 1) (by omega)
      omega
    have hr' := Nat.xor_lt_two_pow hr hb
    have hs' := Nat.xor_lt_two_pow hs hb
    have hstep := ih (shift_lt hp hr') (shift_lt hp hs') h
    exact Nat.xor_left_injective (shift_inj top hr' hs' hstep)

/-- From one register, short messages of one length that differ lead to registers that differ. -/
theorem feed_short (hp : poly < 2 ^ (w + 1)) (top : poly.testBit w = true) {a b : List Bool}
    (hr : r < 2 ^ (w + 1)) (hlen : a.length = b.length) (hw : a.length ≤ w + 1)
    (h : feed poly r a = feed poly r b) : a = b := by
  rw [feed_eq, feed_eq, ← hlen] at h
  have hle : 2 ^ a.length ≤ 2 ^ (w + 1) := Nat.pow_le_pow_right (by omega) hw
  have ha : number a < 2 ^ (w + 1) := (number_lt a).trans_le hle
  have hb : number b < 2 ^ (w + 1) := ((hlen ▸ number_lt b : number b < 2 ^ a.length)).trans_le hle
  have hx := iterate_shift_inj hp top (Nat.xor_lt_two_pow hr ha) (Nat.xor_lt_two_pow hr hb) h
  exact number_inj hlen (Nat.xor_right_injective hx)

/-! ## Damage -/

namespace Within

variable {α : Type} {a b : List α}

theorem replaced (pre mid mid' post : List α) (hlen : mid.length = mid'.length) (hw : mid.length ≤ w) :
    Within w (pre ++ (mid ++ post)) (pre ++ (mid' ++ post)) := by
  refine ⟨by simp [hlen], pre.length, ?_⟩
  rintro i (hi | hi)
  · rw [List.getElem?_append_left hi, List.getElem?_append_left hi]
  · rw [List.getElem?_append_right (by omega), List.getElem?_append_right (by omega),
      List.getElem?_append_right (by omega), List.getElem?_append_right (by omega), hlen]

theorem take (h : Within w a b) (n : Nat) : Within w (a.take n) (b.take n) := by
  obtain ⟨hlen, p, h⟩ := h
  refine ⟨by rw [List.length_take, List.length_take, hlen], p, fun i hi => ?_⟩
  rw [List.getElem?_take, List.getElem?_take, h i hi]

theorem drop (h : Within w a b) (n : Nat) : Within w (a.drop n) (b.drop n) := by
  obtain ⟨hlen, p, h⟩ := h
  refine ⟨by rw [List.length_drop, List.length_drop, hlen], p - n, fun i hi => ?_⟩
  rw [List.getElem?_drop, List.getElem?_drop]
  exact h (n + i) (by omega)

theorem one_side (h : Within w a b) {n m : Nat} (hnm : n + w ≤ m + 1) :
    a.take n = b.take n ∨ a.drop m = b.drop m := by
  obtain ⟨hlen, p, h⟩ := h
  by_cases hp : n ≤ p
  · left
    refine List.ext_getElem? fun i => ?_
    rw [List.getElem?_take, List.getElem?_take]
    split
    · exact h i (by omega)
    · rfl
  · right
    refine List.ext_getElem? fun i => ?_
    rw [List.getElem?_drop, List.getElem?_drop]
    exact h (m + i) (by omega)

end Within

/-- Damage within as many bits as the register is wide shows in the register. -/
theorem feed_within (hp : poly < 2 ^ (w + 1)) (top : poly.testBit w = true) {a b : List Bool}
    (hr : r < 2 ^ (w + 1)) (hd : Within (w + 1) a b) (h : feed poly r a = feed poly r b) : a = b := by
  obtain ⟨hlen, p, hsame⟩ := hd
  have hpre : a.take p = b.take p := by
    refine List.ext_getElem? fun i => ?_
    rw [List.getElem?_take, List.getElem?_take]
    split
    · exact hsame i (by omega)
    · rfl
  have hpost : a.drop (p + (w + 1)) = b.drop (p + (w + 1)) := by
    refine List.ext_getElem? fun i => ?_
    rw [List.getElem?_drop, List.getElem?_drop]
    exact hsame _ (by omega)
  have hcut : ∀ l : List Bool, l = l.take p ++ ((l.drop p).take (w + 1) ++ l.drop (p + (w + 1))) := by
    intro l
    rw [← List.drop_drop, List.take_append_drop, List.take_append_drop]
  have hbits : ∀ l : List Bool, ∀ x ∈ l, x.toNat < 2 ^ (w + 1) := by
    intro l x _
    have := Bool.toNat_le x
    have := Nat.one_lt_two_pow (n := w + 1) (by omega)
    omega
  rw [hcut a, hcut b, feed_append, feed_append, feed_append, feed_append, hpre, hpost] at h
  have hstart := feed_lt hp hr (hbits (b.take p))
  have hmid := feed_inj hp top (feed_lt hp hstart (hbits _)) (feed_lt hp hstart (hbits _)) h
  have hwin := feed_short hp top hstart
    (by rw [List.length_take, List.length_take, List.length_drop, List.length_drop, hlen])
    (by rw [List.length_take]; omega) hmid
  rw [hcut a, hcut b, hpre, hpost, hwin]

end Crc
