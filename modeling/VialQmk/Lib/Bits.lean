import Mathlib.Algebra.Order.Ring.Nat
import Mathlib.Data.List.Basic

/-!
# Lib.Bits

A bit vector as a set of small numbers: one element in, one out, all below a bound, and at most one.
-/

namespace VialQmk
namespace Lib

variable {w : Nat}

theorem getLsbD_or_one_shiftLeft (x : BitVec w) (i j : Nat) :
    (x ||| (1#w <<< i)).getLsbD j = true ↔ x.getLsbD j = true ∨ j = i ∧ i < w := by
  simp only [BitVec.getLsbD_or, BitVec.getLsbD_shiftLeft, BitVec.getLsbD_one, Bool.or_eq_true, Bool.and_eq_true,
    decide_eq_true_eq, Bool.not_eq_true', decide_eq_false_iff_not]
  constructor
  · rintro (h | h)
    · exact .inl h
    · exact .inr (by omega)
  · rintro (h | h)
    · exact .inl h
    · exact .inr (by omega)

theorem getLsbD_and_not_one_shiftLeft (x : BitVec w) (i j : Nat) :
    (x &&& ~~~(1#w <<< i)).getLsbD j = true ↔ x.getLsbD j = true ∧ j ≠ i := by
  have hlt : x.getLsbD j = true → j < w := BitVec.lt_of_getLsbD
  simp only [BitVec.getLsbD_and, BitVec.getLsbD_not, BitVec.getLsbD_shiftLeft, BitVec.getLsbD_one,
    Bool.and_eq_true, decide_eq_true_eq, Bool.not_eq_true', Bool.and_eq_false_iff, decide_eq_false_iff_not,
    Bool.not_eq_false']
  constructor
  · rintro ⟨h, -, h'⟩
    exact ⟨h, by have := hlt h; omega⟩
  · rintro ⟨h, h'⟩
    exact ⟨h, hlt h, by have := hlt h; omega⟩

theorem two_pow_sub_one_eq_toNat_iff {x : BitVec w} {n : Nat} :
    2 ^ n - 1 = x.toNat ↔ n ≤ w ∧ ∀ i, x.getLsbD i = true ↔ i < n := by
  constructor
  · intro h
    have hbits : ∀ i, x.getLsbD i = true ↔ i < n := by
      intro i
      rw [← BitVec.testBit_toNat, ← h, Nat.testBit_two_pow_sub_one, decide_eq_true_eq]
    refine ⟨?_, hbits⟩
    rcases Nat.eq_zero_or_pos n with rfl | hpos
    · exact Nat.zero_le w
    · have := BitVec.lt_of_getLsbD ((hbits (n - 1)).mpr (by omega))
      omega
  · rintro ⟨-, hbits⟩
    apply Nat.eq_of_testBit_eq
    intro i
    rw [Nat.testBit_two_pow_sub_one, BitVec.testBit_toNat, Bool.eq_iff_iff, decide_eq_true_eq]
    exact (hbits i).symm

theorem and_sub_one_toNat {x : BitVec w} (h : x ≠ 0) : (x &&& (x - 1)).toNat = x.toNat &&& (x.toNat - 1) := by
  have hpos : x.toNat ≠ 0 := fun h0 => h (BitVec.eq_of_toNat_eq (by simpa using h0))
  have hlt := x.isLt
  have hw : 1 < 2 ^ w := by omega
  have hone : (1 : BitVec w).toNat = 1 := by
    rw [BitVec.ofNat_eq_ofNat, BitVec.toNat_ofNat]
    exact Nat.mod_eq_of_lt hw
  rw [BitVec.toNat_and, BitVec.toNat_sub_of_le (by rw [BitVec.le_def, hone]; omega), hone]

theorem eq_of_and_sub_one {x : BitVec w} (h : x &&& (x - 1) = 0) {i j : Nat} (hi : x.getLsbD i = true)
    (hj : x.getLsbD j = true) : i = j := by
  have hne : x ≠ 0 := by
    rintro rfl
    simp at hi
  have hzero : x.toNat &&& (x.toNat - 1) = 0 := by
    rw [← and_sub_one_toNat hne, h]
    simp
  obtain ⟨k, hk⟩ := (Nat.ne_zero_and_sub_one_eq_zero_iff_isPowerOfTwo.mp
    ⟨fun h0 => hne (BitVec.eq_of_toNat_eq (by simpa using h0)), hzero⟩)
  have hbit : ∀ {l}, x.getLsbD l = true → k = l := by
    intro l hl
    rw [← BitVec.testBit_toNat, hk, Nat.testBit_two_pow] at hl
    simpa using hl
  exact (hbit hi).symm.trans (hbit hj)

theorem and_sub_one_of_unique {x : BitVec w} {i : Nat} (hi : x.getLsbD i = true)
    (h : ∀ j, x.getLsbD j = true → j = i) : x &&& (x - 1) = 0 := by
  have hne : x ≠ 0 := by
    rintro rfl
    simp at hi
  have hpow : x.toNat = 2 ^ i := by
    apply Nat.eq_of_testBit_eq
    intro j
    rw [Nat.testBit_two_pow, BitVec.testBit_toNat, Bool.eq_iff_iff, decide_eq_true_eq]
    exact ⟨fun hj => (h j hj).symm, fun hj => hj ▸ hi⟩
  have hzero := (Nat.ne_zero_and_sub_one_eq_zero_iff_isPowerOfTwo.mpr ⟨i, hpow⟩).2
  rw [← and_sub_one_toNat hne] at hzero
  exact BitVec.eq_of_toNat_eq (by simpa using hzero)

end Lib
end VialQmk
