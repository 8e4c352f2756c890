import Mathlib.Algebra.Order.Ring.Nat

/-!
# Lib.LittleEndian

Numbers in little-endian bytes, and fields of a packed record.
-/

namespace VialQmk
namespace Lib

def leBytes : Nat → Nat → List UInt8
  | 0, _ => []
  | size + 1, n => UInt8.ofNat n :: leBytes size (n / 256)

def leNat : List UInt8 → Nat
  | [] => 0
  | b :: bs => b.toNat + 256 * leNat bs

@[simp]
theorem length_leBytes (size n : Nat) : (leBytes size n).length = size := by
  induction size generalizing n with
  | zero => rfl
  | succ size ih => rw [leBytes, List.length_cons, ih]

theorem leNat_leBytes (size n : Nat) : leNat (leBytes size n) = n % 256 ^ size := by
  induction size generalizing n with
  | zero =>
    rw [Nat.pow_zero, Nat.mod_one]
    rfl
  | succ size ih =>
    rw [leBytes, leNat, ih, Nat.pow_succ, Nat.mul_comm (256 ^ size), Nat.mod_mul]
    simp

theorem leNat_leBytes_of_lt {size n : Nat} (h : n < 256 ^ size) : leNat (leBytes size n) = n := by
  rw [leNat_leBytes, Nat.mod_eq_of_lt h]

theorem leNat_lt (bs : List UInt8) : leNat bs < 256 ^ bs.length := by
  induction bs with
  | nil => exact Nat.one_pos
  | cons b bs ih =>
    have hb := b.toNat_lt
    rw [leNat, List.length_cons, Nat.pow_succ]
    omega

theorem leBytes_leNat (bs : List UInt8) : leBytes bs.length (leNat bs) = bs := by
  induction bs with
  | nil => rfl
  | cons b bs ih =>
    have hb := b.toNat_lt
    rw [List.length_cons, leBytes, leNat]
    congr 1
    · apply UInt8.toNat_inj.mp
      simp
    · rw [show (b.toNat + 256 * leNat bs) / 256 = leNat bs by omega, ih]

theorem leBytes_zero (size : Nat) : leBytes size 0 = List.replicate size 0 := by
  induction size with
  | zero => rfl
  | succ size ih =>
    rw [leBytes, Nat.zero_div, ih, List.replicate_succ]
    rfl

theorem leBytes_max (size : Nat) : leBytes size (256 ^ size - 1) = List.replicate size 0xFF := by
  induction size with
  | zero => rfl
  | succ size ih =>
    have hpos : 0 < 256 ^ size := Nat.pow_pos (by omega)
    rw [leBytes, Nat.pow_succ, List.replicate_succ, show (256 ^ size * 256 - 1) / 256 = 256 ^ size - 1 by omega, ih]
    congr 1
    apply UInt8.toNat_inj.mp
    rw [UInt8.toNat_ofNat', show (256 ^ size * 256 - 1) % 2 ^ 8 = 255 by omega]
    rfl

def field (bs : List UInt8) (offset size : Nat) : Nat := leNat ((bs.drop offset).take size)

theorem field_here {bs post : List UInt8} {size : Nat} (h : bs.length = size) :
    field (bs ++ post) 0 size = leNat bs := by
  rw [field, List.drop_zero, ← h, List.take_left]

theorem field_skip {pre rest : List UInt8} {offset size : Nat} (h : pre.length ≤ offset) :
    field (pre ++ rest) offset size = field rest (offset - pre.length) size := by
  rw [field, field, List.drop_append, List.drop_eq_nil_of_le h, List.nil_append]

end Lib
end VialQmk
