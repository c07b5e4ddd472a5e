import LuksAndroid.Lib.Bytes

/-!
# Bitmaps

Bit `i` of a byte string is bit `i % 8` of its byte `i / 8`, least significant first.
-/

namespace Bytes

/-- Bits behind the end are clear. -/
def bit (b : Bytes) (i : Nat) : Bool := (b.getD (i / 8) 0).toNat.testBit (i % 8)

def setBit (b : Bytes) (i : Nat) : Bytes := b.modify (i / 8) (· ||| 1 <<< UInt8.ofNat (i % 8))

def clearBit (b : Bytes) (i : Nat) : Bytes := b.modify (i / 8) (· &&& ~~~(1 <<< UInt8.ofNat (i % 8)))

@[simp] theorem length_setBit (b : Bytes) (i : Nat) : (b.setBit i).length = b.length := by simp [setBit]

@[simp] theorem length_clearBit (b : Bytes) (i : Nat) : (b.clearBit i).length = b.length := by simp [clearBit]

/-! ## One byte -/

theorem toNat_one_shiftLeft {k : Nat} (hk : k < 8) : ((1 : UInt8) <<< UInt8.ofNat k).toNat = 2 ^ k := by
  interval_cases k <;> rfl

theorem testBit_or_bit (x : UInt8) {j k : Nat} (hk : k < 8) :
    (x ||| 1 <<< UInt8.ofNat k).toNat.testBit j = (x.toNat.testBit j || decide (k = j)) := by
  rw [UInt8.toNat_or, Nat.testBit_or, toNat_one_shiftLeft hk, Nat.testBit_two_pow]

theorem testBit_and_not_bit (x : UInt8) {j k : Nat} (hj : j < 8) (hk : k < 8) :
    (x &&& ~~~(1 <<< UInt8.ofNat k)).toNat.testBit j = (x.toNat.testBit j && decide (k ≠ j)) := by
  have hmask : (~~~((1 : UInt8) <<< UInt8.ofNat k)).toNat.testBit j = decide (k ≠ j) := by
    interval_cases k <;> interval_cases j <;> rfl
  rw [UInt8.toNat_and, Nat.testBit_and, hmask]

/-! ## The whole map -/

theorem bit_setBit {b : Bytes} {i : Nat} (h : i / 8 < b.length) (j : Nat) :
    (b.setBit i).bit j = (b.bit j || decide (i = j)) := by
  have hk : i % 8 < 8 := Nat.mod_lt _ (by omega)
  unfold bit setBit
  rw [List.getD_eq_getElem?_getD, List.getD_eq_getElem?_getD, List.getElem?_modify]
  by_cases hij : i / 8 = j / 8
  · rw [← hij, List.getElem?_eq_getElem h]
    simp only [if_true, Option.map_eq_map, Option.map_some, Option.getD_some]
    rw [testBit_or_bit _ hk]
    congr 2
    rw [eq_iff_iff]
    omega
  · have : i ≠ j := fun he => hij (by rw [he])
    simp [hij, this]

theorem bit_clearBit {b : Bytes} {i : Nat} (h : i / 8 < b.length) (j : Nat) :
    (b.clearBit i).bit j = (b.bit j && decide (i ≠ j)) := by
  have hk : i % 8 < 8 := Nat.mod_lt _ (by omega)
  have hj : j % 8 < 8 := Nat.mod_lt _ (by omega)
  unfold bit clearBit
  rw [List.getD_eq_getElem?_getD, List.getD_eq_getElem?_getD, List.getElem?_modify]
  by_cases hij : i / 8 = j / 8
  · rw [← hij, List.getElem?_eq_getElem h]
    simp only [if_true, Option.map_eq_map, Option.map_some, Option.getD_some]
    rw [testBit_and_not_bit _ hj hk]
    congr 2
    rw [eq_iff_iff]
    omega
  · have : i ≠ j := fun he => hij (by rw [he])
    simp [hij, this]

end Bytes
