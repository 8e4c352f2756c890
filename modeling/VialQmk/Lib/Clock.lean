import Mathlib.Data.BitVec
import Mathlib.Tactic.Ring

/-!
# Lib.Clock

A clock of finitely many bits, and the order of two of its readings by the sign of their difference, which is right
for times that are less than half a turn apart.
-/

namespace VialQmk
namespace Lib

variable {w : Nat}

def clock (start : BitVec w) (time : Nat) : BitVec w := start + BitVec.ofNat w time

theorem clock_add (start : BitVec w) (time delay : Nat) :
    clock start (time + delay) = clock start time + BitVec.ofNat w delay := by
  rw [clock, clock, BitVec.ofNat_add, BitVec.add_assoc]

theorem clock_add_toNat (start delay : BitVec w) (time : Nat) :
    clock start (time + delay.toNat) = clock start time + delay := by
  rw [clock_add, BitVec.ofNat_toNat, BitVec.setWidth_eq]

theorem clock_sub_pos (start : BitVec (w + 1)) {time later : Nat} (hlt : time < later)
    (hhalf : later < time + 2 ^ w) : 0 < (clock start later - clock start time).toInt := by
  obtain ⟨gap, rfl⟩ := Nat.exists_eq_add_of_le (Nat.le_of_lt hlt)
  have hgap : (clock start (time + gap) - clock start time).toNat = gap := by
    rw [clock_add, BitVec.add_comm, BitVec.add_sub_cancel, BitVec.toNat_ofNat, Nat.mod_eq_of_lt]
    rw [Nat.pow_succ]
    omega
  rw [BitVec.toInt_eq_toNat_of_lt (by rw [hgap, Nat.pow_succ]; omega), hgap]
  omega

/-- The time until a reading that lies the difference `d` ahead of another is seen to be later. -/
def untilLater (d : BitVec w) : Nat := if 0 < d.toInt then 0 else (1 - d).toNat

/-- Only a reading that is the other one itself comes to be later in the next unit of time. -/
theorem eq_zero_of_succ_pos {d : BitVec (w + 1)} (hnow : ¬ 0 < d.toInt) (hnext : 0 < (d + 1).toInt) : d = 0 := by
  have hlt := d.isLt
  have hone : (1 : BitVec (w + 1)).toNat = 1 := BitVec.toNat_one (Nat.succ_pos w)
  rw [BitVec.toInt_eq_toNat_cond, BitVec.toNat_add, hone] at hnext
  rw [BitVec.toInt_eq_toNat_cond] at hnow
  apply BitVec.eq_of_toNat_eq
  rw [BitVec.ofNat_eq_ofNat, BitVec.toNat_zero]
  rcases Nat.lt_or_ge (d.toNat + 1) (2 ^ (w + 1)) with hsmall | hround
  · rw [Nat.mod_eq_of_lt hsmall] at hnext
    split at hnext
    · rw [if_pos (by omega)] at hnow
      omega
    · omega
  · obtain hlast : d.toNat + 1 = 2 ^ (w + 1) := by omega
    rw [hlast, Nat.mod_self, Nat.mul_zero, if_pos (Nat.two_pow_pos _)] at hnext
    exact absurd hnext (lt_irrefl _)

theorem untilLater_le_succ (d : BitVec (w + 1)) : untilLater d ≤ untilLater (d + 1) + 1 := by
  have hone : (1 : BitVec (w + 1)).toNat = 1 := BitVec.toNat_one (Nat.succ_pos w)
  unfold untilLater
  by_cases hnow : 0 < d.toInt
  · rw [if_pos hnow]
    exact Nat.zero_le _
  rw [if_neg hnow]
  by_cases hnext : 0 < (d + 1).toInt
  · rw [if_pos hnext, eq_zero_of_succ_pos hnow hnext, sub_zero, hone]
  · have hsum : 1 - d = 1 - (d + 1) + 1 := by ring
    rw [if_neg hnext, hsum, BitVec.toNat_add, hone]
    exact Nat.mod_le _ _

end Lib
end VialQmk
