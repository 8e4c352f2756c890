import VialQmk.Lib.Crc
import VialQmk.Split.Encoder

/-!
# Split.Crc

The two variants of `crc8` (`crc.c`), which the halves of a split keyboard compare to see whether shared memory has
changed.

* `table_eq`: the table is that of the polynomial 0x07, while the loop has 0x31.
* `crc8_variants_iff`: both find each burst of eight bits, and where they have one value.
-/

namespace VialQmk
namespace Split

open Lib Lib.Crc Polynomial

def crcTable : List (BitVec 8) :=
  [0x00, 0x07, 0x0e, 0x09, 0x1c, 0x1b, 0x12, 0x15, 0x38, 0x3f, 0x36, 0x31, 0x24, 0x23, 0x2a, 0x2d,
   0x70, 0x77, 0x7e, 0x79, 0x6c, 0x6b, 0x62, 0x65, 0x48, 0x4f, 0x46, 0x41, 0x54, 0x53, 0x5a, 0x5d,
   0xe0, 0xe7, 0xee, 0xe9, 0xfc, 0xfb, 0xf2, 0xf5, 0xd8, 0xdf, 0xd6, 0xd1, 0xc4, 0xc3, 0xca, 0xcd,
   0x90, 0x97, 0x9e, 0x99, 0x8c, 0x8b, 0x82, 0x85, 0xa8, 0xaf, 0xa6, 0xa1, 0xb4, 0xb3, 0xba, 0xbd,
   0xc7, 0xc0, 0xc9, 0xce, 0xdb, 0xdc, 0xd5, 0xd2, 0xff, 0xf8, 0xf1, 0xf6, 0xe3, 0xe4, 0xed, 0xea,
   0xb7, 0xb0, 0xb9, 0xbe, 0xab, 0xac, 0xa5, 0xa2, 0x8f, 0x88, 0x81, 0x86, 0x93, 0x94, 0x9d, 0x9a,
   0x27, 0x20, 0x29, 0x2e, 0x3b, 0x3c, 0x35, 0x32, 0x1f, 0x18, 0x11, 0x16, 0x03, 0x04, 0x0d, 0x0a,
   0x57, 0x50, 0x59, 0x5e, 0x4b, 0x4c, 0x45, 0x42, 0x6f, 0x68, 0x61, 0x66, 0x73, 0x74, 0x7d, 0x7a,
   0x89, 0x8e, 0x87, 0x80, 0x95, 0x92, 0x9b, 0x9c, 0xb1, 0xb6, 0xbf, 0xb8, 0xad, 0xaa, 0xa3, 0xa4,
   0xf9, 0xfe, 0xf7, 0xf0, 0xe5, 0xe2, 0xeb, 0xec, 0xc1, 0xc6, 0xcf, 0xc8, 0xdd, 0xda, 0xd3, 0xd4,
   0x69, 0x6e, 0x67, 0x60, 0x75, 0x72, 0x7b, 0x7c, 0x51, 0x56, 0x5f, 0x58, 0x4d, 0x4a, 0x43, 0x44,
   0x19, 0x1e, 0x17, 0x10, 0x05, 0x02, 0x0b, 0x0c, 0x21, 0x26, 0x2f, 0x28, 0x3d, 0x3a, 0x33, 0x34,
   0x4e, 0x49, 0x40, 0x47, 0x52, 0x55, 0x5c, 0x5b, 0x76, 0x71, 0x78, 0x7f, 0x6a, 0x6d, 0x64, 0x63,
   0x3e, 0x39, 0x30, 0x37, 0x22, 0x25, 0x2c, 0x2b, 0x06, 0x01, 0x08, 0x0f, 0x1a, 0x1d, 0x14, 0x13,
   0xae, 0xa9, 0xa0, 0xa7, 0xb2, 0xb5, 0xbc, 0xbb, 0x96, 0x91, 0x98, 0x9f, 0x8a, 0x8d, 0x84, 0x83,
   0xde, 0xd9, 0xd0, 0xd7, 0xc2, 0xc5, 0xcc, 0xcb, 0xe6, 0xe1, 0xe8, 0xef, 0xfa, 0xfd, 0xf4, 0xf3]

section Code

variable {extra : Nat}

/-- The body of the inner loop. A `crc_t` has 8 bits or more. -/
def crc8LoopBit (crc : BitVec (8 + extra)) : BitVec (8 + extra) :=
  if crc &&& 0x80 ≠ 0 then crc <<< 1 ^^^ 0x31 else crc <<< 1

def crc8Bitwise (extra : Nat) (data : List UInt8) : UInt8 :=
  ⟨(data.foldl (fun (crc : BitVec (8 + extra)) d => crc8LoopBit^[8] (crc ^^^ d.toBitVec.setWidth _)) 0xff).setWidth 8⟩

def crc8Table (extra : Nat) (data : List UInt8) : UInt8 :=
  ⟨(data.foldl (fun (crc : BitVec (8 + extra)) d =>
    (crcTable.getD (crc ^^^ d.toBitVec.setWidth _).toNat 0).setWidth _ &&& 0xff) 0xff).setWidth 8⟩

end Code

def words (data : List UInt8) : List (BitVec 8) := data.map UInt8.toBitVec

section Register

variable {extra : Nat}

theorem low_ofNat (n : Nat) : (BitVec.ofNat (8 + extra) n).setWidth 8 = BitVec.ofNat 8 n :=
  BitVec.setWidth_ofNat_of_le (Nat.le_add_right 8 extra) n

theorem wide_0xff : (0xff : BitVec (8 + extra)) = (0xff#8).setWidth (8 + extra) := by
  apply BitVec.eq_of_toNat_eq
  rw [BitVec.toNat_setWidth_of_le (Nat.le_add_right 8 extra)]
  have hwide : 2 ^ 8 ≤ 2 ^ (8 + extra) := Nat.pow_le_pow_right (Nat.succ_pos 1) (Nat.le_add_right 8 extra)
  exact Nat.mod_eq_of_lt (Nat.lt_of_lt_of_le (by decide) hwide)

theorem low_shiftLeft (crc : BitVec (8 + extra)) : (crc <<< 1).setWidth 8 = crc.setWidth 8 <<< 1 := by
  apply BitVec.eq_of_getLsbD_eq
  intro i hi
  simp only [BitVec.getLsbD_setWidth, BitVec.getLsbD_shiftLeft]
  by_cases h : i < 1
  · simp [h]
  · simp [h, hi, show i - 1 < 8 by omega, show i < 8 + extra by omega]

theorem and_0x80_ne_zero (crc : BitVec (8 + extra)) : crc &&& 0x80 ≠ 0 ↔ (crc.setWidth 8).msb = true := by
  have htwo : (0x80 : BitVec (8 + extra)) = BitVec.twoPow (8 + extra) 7 := by
    apply BitVec.eq_of_toNat_eq
    rw [BitVec.toNat_twoPow]
    rfl
  have hmsb : (crc.setWidth 8).msb = crc.getLsbD 7 := by
    rw [BitVec.msb_eq_getLsbD_last, BitVec.getLsbD_setWidth]
    simp
  rw [htwo, BitVec.and_twoPow, hmsb]
  cases crc.getLsbD 7 with
  | false => simp
  | true =>
    refine iff_of_true (fun hzero => ?_) rfl
    have hbit := congrArg (fun x => BitVec.getLsbD x 7) hzero
    simp [BitVec.getLsbD_twoPow] at hbit
    omega

theorem loopBit_low (crc : BitVec (8 + extra)) :
    (crc8LoopBit crc).setWidth 8 = shiftOut (0x31#8) (crc.setWidth 8) := by
  have hpoly : (0x31 : BitVec (8 + extra)).setWidth 8 = 0x31#8 := low_ofNat _
  rw [crc8LoopBit, shiftOut]
  by_cases h : (crc.setWidth 8).msb = true
  · rw [if_pos ((and_0x80_ne_zero crc).mpr h), if_pos h, BitVec.setWidth_xor, low_shiftLeft, hpoly]
  · rw [if_neg (mt (and_0x80_ne_zero crc).mp h), if_neg h, low_shiftLeft]

theorem loopBits_low (crc : BitVec (8 + extra)) (n : Nat) :
    (crc8LoopBit^[n] crc).setWidth 8 = (shiftOut (0x31#8))^[n] (crc.setWidth 8) := by
  induction n with
  | zero => rfl
  | succ n ih => rw [Function.iterate_succ_apply', Function.iterate_succ_apply', loopBit_low, ih]

theorem crc8Bitwise_eq (extra : Nat) (data : List UInt8) :
    crc8Bitwise extra data = ⟨crc (0x31#8) (0xff#8) (words data)⟩ := by
  have hloop (r : BitVec (8 + extra)) :
      (data.foldl (fun (crc : BitVec (8 + extra)) d => crc8LoopBit^[8] (crc ^^^ d.toBitVec.setWidth _)) r).setWidth 8 =
        crc (0x31#8) (r.setWidth 8) (words data) := by
    rw [crc, words, List.foldl_map]
    refine (List.foldl_hom (BitVec.setWidth 8) fun r d => ?_).symm
    rw [loopBits_low, BitVec.setWidth_xor, BitVec.setWidth_setWidth_of_le _ (Nat.le_add_right 8 extra),
      BitVec.setWidth_eq]
    rfl
  rw [crc8Bitwise, hloop, show (0xff : BitVec (8 + extra)).setWidth 8 = 0xff#8 from low_ofNat _]

theorem table_eq : ∀ i < 256, crcTable.getD i 0 = (shiftOut (0x07#8))^[8] (BitVec.ofNat 8 i) := by
  decide +kernel

theorem table_step (r d : BitVec 8) :
    (crcTable.getD (r.setWidth (8 + extra) ^^^ d.setWidth _).toNat 0).setWidth (8 + extra) &&& 0xff =
      (crcStep (0x07#8) r d).setWidth (8 + extra) := by
  have hindex : (r.setWidth (8 + extra) ^^^ d.setWidth _).toNat = (r ^^^ d).toNat := by
    rw [← BitVec.setWidth_xor, BitVec.toNat_setWidth_of_le (Nat.le_add_right 8 extra)]
  rw [hindex, table_eq _ (r ^^^ d).isLt, BitVec.ofNat_toNat, BitVec.setWidth_eq, wide_0xff, ← BitVec.setWidth_and]
  exact congrArg (BitVec.setWidth (8 + extra)) (BitVec.and_allOnes)

theorem crc8Table_eq (extra : Nat) (data : List UInt8) :
    crc8Table extra data = ⟨crc (0x07#8) (0xff#8) (words data)⟩ := by
  have hloop (r : BitVec 8) :
      data.foldl (fun (crc : BitVec (8 + extra)) d =>
        (crcTable.getD (crc ^^^ d.toBitVec.setWidth _).toNat 0).setWidth _ &&& 0xff) (r.setWidth _) =
          (crc (0x07#8) r (words data)).setWidth (8 + extra) := by
    rw [crc, words, List.foldl_map]
    exact List.foldl_hom (BitVec.setWidth (8 + extra)) fun r d => table_step r d.toBitVec
  have hstart := hloop (0xff#8)
  rw [← wide_0xff] at hstart
  rw [crc8Table, hstart, BitVec.setWidth_setWidth_of_le _ (Nat.le_add_right 8 extra), BitVec.setWidth_eq]

end Register

theorem generator_0x07 : generator (0x07#8) = X ^ 8 + X ^ 2 + X + 1 := by
  have hbits : wordBits (0x07#8) = [false, false, false, false, false, true, true, true] := by decide
  rw [generator, ofWord, hbits]
  simp [ofBits, ofBit]
  ring

theorem generator_0x31 : generator (0x31#8) = X ^ 8 + X ^ 5 + X ^ 4 + 1 := by
  have hbits : wordBits (0x31#8) = [false, false, true, true, false, false, false, true] := by decide
  rw [generator, ofWord, hbits]
  simp [ofBits, ofBit]
  ring

theorem generator_0x6d8d : generator (0x6d8d#15) =
    X ^ 15 + X ^ 14 + X ^ 13 + X ^ 11 + X ^ 10 + X ^ 8 + X ^ 7 + X ^ 3 + X ^ 2 + 1 := by
  have hbits : wordBits (0x6d8d#15) =
    [true, true, false, true, true, false, true, true, false, false, false, true, true, false, true] := by decide
  rw [generator, ofWord, hbits]
  simp [ofBits, ofBit]
  ring

noncomputable def cofactor : (ZMod 2)[X] := X ^ 7 + X ^ 6 + X ^ 5 + X ^ 4 + X ^ 3 + X ^ 2 + 1

theorem two_eq_zero : (2 : (ZMod 2)[X]) = 0 := CharTwo.two_eq_zero

theorem generator_dvd_left : generator (0x07#8) ∣ generator (0x6d8d#15) := by
  refine ⟨X ^ 7 + X ^ 6 + X ^ 5 + X ^ 3 + X ^ 2 + X + 1, ?_⟩
  rw [generator_0x07, generator_0x6d8d]
  linear_combination
    (- (X ^ 9 + X ^ 8 + X ^ 7 + X ^ 6 + X ^ 5 + X ^ 4 + X ^ 3 + X ^ 2 + X)) * two_eq_zero

theorem cofactor_mul : cofactor * generator (0x31#8) = generator (0x6d8d#15) := by
  rw [generator_0x31, generator_0x6d8d, cofactor]
  linear_combination
    (X ^ 12 + X ^ 11 + X ^ 10 + X ^ 9 + X ^ 8 + X ^ 7 + X ^ 6 + X ^ 5 + X ^ 4) * two_eq_zero

theorem cofactor_dvd : cofactor ∣ generator (0x07#8) := by
  refine ⟨X + 1, ?_⟩
  rw [generator_0x07, cofactor]
  linear_combination (- (X ^ 7 + X ^ 6 + X ^ 5 + X ^ 4 + X ^ 3)) * two_eq_zero

theorem cofactor_isCoprime : IsCoprime cofactor (generator (0x31#8)) := by
  refine ⟨X ^ 7 + X ^ 6 + X ^ 5, X ^ 6 + X ^ 4 + 1, ?_⟩
  rw [generator_0x31, cofactor]
  linear_combination
    (X ^ 14 + X ^ 13 + 2 * X ^ 12 + 2 * X ^ 11 + 2 * X ^ 10 + 2 * X ^ 9 + 2 * X ^ 8 + X ^ 7 + X ^ 6 + X ^ 5 + X ^ 4) *
      two_eq_zero

theorem generator_least (p : (ZMod 2)[X]) (hleft : generator (0x07#8) ∣ p) (hright : generator (0x31#8) ∣ p) :
    generator (0x6d8d#15) ∣ p := by
  rw [← cofactor_mul]
  exact cofactor_isCoprime.mul_dvd (cofactor_dvd.trans hleft) hright

/-- Either variant has a value of its own for each of two strings that differ within eight bits, whatever the width of
`crc_t` is. The two variants have the same value where the remainder of the string by the least common multiple of their
generators is no longer than a byte. -/
theorem crc8_variants_iff (extra : Nat) (data : List UInt8) :
    (crc8Table extra data = crc8Bitwise extra data ∧
        ∀ data', Burst (words data) (words data') →
          crc8Table extra data ≠ crc8Table extra data' ∧ crc8Bitwise extra data ≠ crc8Bitwise extra data') ↔
      (codeword (0xff#8) (words data) %ₘ generator (0x6d8d#15)).degree < 8 := by
  have hiff := crc_eq_iff generator_dvd_left (dvd_of_mul_left_eq _ cofactor_mul) generator_least (0xff#8) (words data)
  simp only [crc8Table_eq, crc8Bitwise_eq, UInt8.ofBitVec.injEq, ne_eq]
  rw [hiff]
  refine and_iff_left_iff_imp.mpr fun _ data' hburst => ?_
  exact ⟨crc_ne_of_burst (by decide) (0xff#8) hburst, crc_ne_of_burst (by decide) (0xff#8) hburst⟩

theorem crc8_variants_differ : crc8Table 0 [0] = 0xf3 ∧ crc8Bitwise 0 [0] = 0xac := by decide

end Split
end VialQmk
