import LuksAndroid.Lib.Bytes
import Mathlib

/-!
# CRC32C

`core/src/fs/btrfs/crc32c.rs`, one bit at a time. Both filesystems checksum their
metadata with it.
-/

namespace LuksAndroid

/-- One bit of the Castagnoli register. -/
def crc32c_bit (r : Nat) : Nat := if r % 2 = 1 then r / 2 ^^^ 0x82F63B78 else r / 2

def crc32c_byte (r : Nat) (b : UInt8) : Nat := crc32c_bit^[8] (r ^^^ b.toNat)

/-- The register, seeded and without a final inversion. -/
def crc32c_seed (seed : Nat) (data : Bytes) : Nat := data.foldl crc32c_byte seed

def crc32c (data : Bytes) : Nat := crc32c_seed 0xFFFFFFFF data ^^^ 0xFFFFFFFF

/-- The check vector of the source's test. -/
example : crc32c [0x31, 0x32, 0x33, 0x34, 0x35, 0x36, 0x37, 0x38, 0x39] = 0xE3069283 := by
  decide +kernel

/-! ## The register is 32 bits wide -/

theorem crc32c_bit_lt {r : Nat} (h : r < 2 ^ 32) : crc32c_bit r < 2 ^ 32 := by
  unfold crc32c_bit
  split
  · exact Nat.xor_lt_two_pow (by omega) (by omega)
  · omega

theorem crc32c_byte_lt {r : Nat} (h : r < 2 ^ 32) (b : UInt8) : crc32c_byte r b < 2 ^ 32 := by
  have hb := b.toNat_lt
  have hx : r ^^^ b.toNat < 2 ^ 32 := Nat.xor_lt_two_pow h (by omega)
  exact Function.Iterate.rec (fun x => x < 2 ^ 32) hx (fun _ h => crc32c_bit_lt h) 8

theorem crc32c_seed_lt {seed : Nat} (h : seed < 2 ^ 32) (data : Bytes) :
    crc32c_seed seed data < 2 ^ 32 := by
  induction data generalizing seed with
  | nil => exact h
  | cons b data ih => exact ih (crc32c_byte_lt h b)

theorem crc32c_lt (data : Bytes) : crc32c data < 2 ^ 32 :=
  Nat.xor_lt_two_pow (crc32c_seed_lt (by omega) data) (by omega)

end LuksAndroid
