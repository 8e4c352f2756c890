import Mathlib.Algebra.Order.Ring.Nat

/-!
# Lib.HalfWord

The bytes and the bit fields of 16-bit words.
-/

namespace VialQmk
namespace Lib

def lowByte (w : UInt16) : UInt8 := w.toUInt8

def highByte (w : UInt16) : UInt8 := (w >>> 8).toUInt8

/-- The half-word of two bytes in memory, the low byte first. -/
def ofBytes (lo hi : UInt8) : UInt16 := UInt16.ofNat (lo.toNat + 256 * hi.toNat)

theorem lowByte_toNat (w : UInt16) : (lowByte w).toNat = w.toNat % 256 := by
  rw [lowByte, UInt16.toNat_toUInt8]

theorem highByte_toNat (w : UInt16) : (highByte w).toNat = w.toNat / 256 := by
  have h := w.toNat_lt
  rw [highByte, UInt16.toNat_toUInt8, UInt16.toNat_shiftRight, Nat.shiftRight_eq_div_pow]
  exact Nat.mod_eq_of_lt (by simp; omega)

theorem ofBytes_toNat (lo hi : UInt8) : (ofBytes lo hi).toNat = lo.toNat + 256 * hi.toNat := by
  have h := lo.toNat_lt
  have h' := hi.toNat_lt
  rw [ofBytes, UInt16.toNat_ofNat']
  exact Nat.mod_eq_of_lt (by omega)

@[simp]
theorem lowByte_ofBytes (lo hi : UInt8) : lowByte (ofBytes lo hi) = lo := by
  have h := lo.toNat_lt
  apply UInt8.toNat_inj.mp
  rw [lowByte_toNat, ofBytes_toNat]
  omega

@[simp]
theorem highByte_ofBytes (lo hi : UInt8) : highByte (ofBytes lo hi) = hi := by
  have h := lo.toNat_lt
  apply UInt8.toNat_inj.mp
  rw [highByte_toNat, ofBytes_toNat]
  omega

@[simp]
theorem ofBytes_low_high (w : UInt16) : ofBytes (lowByte w) (highByte w) = w := by
  apply UInt16.toNat_inj.mp
  rw [ofBytes_toNat, lowByte_toNat, highByte_toNat]
  omega

theorem and_mask (n j k : Nat) : n &&& (2 ^ j - 1) * 2 ^ k = n / 2 ^ k % 2 ^ j * 2 ^ k := by
  apply Nat.eq_of_testBit_eq
  intro i
  rw [Nat.testBit_and, Nat.testBit_mul_two_pow, Nat.testBit_mul_two_pow, Nat.testBit_mod_two_pow,
    Nat.testBit_two_pow_sub_one, Nat.testBit_div_two_pow]
  by_cases hk : k ≤ i
  · simp [hk, Bool.and_comm]
  · simp [hk]

theorem or_field {n k m : Nat} (h : n < 2 ^ k) : n ||| m * 2 ^ k = n + m * 2 ^ k := by
  rw [Nat.or_comm, ← Nat.shiftLeft_eq, ← Nat.shiftLeft_add_eq_or_of_lt h, Nat.add_comm]

theorem and_mask_toNat {w m : UInt16} (j k : Nat) (hm : m.toNat = (2 ^ j - 1) * 2 ^ k) :
    (w &&& m).toNat = w.toNat / 2 ^ k % 2 ^ j * 2 ^ k := by
  rw [UInt16.toNat_and, hm, and_mask]

end Lib
end VialQmk
