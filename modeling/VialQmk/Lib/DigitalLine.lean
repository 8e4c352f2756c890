import Mathlib.Data.Int.GCD
import Mathlib.Tactic.Common
import Mathlib.Tactic.Ring

/-!
# Lib.DigitalLine

The line from the origin to (`major`, `minor`) on a grid, one point for each column.

* `rounded`: the row of a column, which is the nearest one to the line.
* `rounded_succ`: the next row by an inequality between integers.
* `excess_le_peak`, `exists_excess_eq_peak`: how far the rows get ahead of the line.
-/

namespace VialQmk
namespace Lib
namespace DigitalLine

/-- The row of a column. A line that is between two rows takes the upper one. -/
def rounded (major minor k : Nat) : Nat := (2 * (k * minor) + major) / (2 * major)

/-- How far the rows get ahead of the line, in units of `major` for each row. -/
def peak (major minor : Nat) : Nat := (major - major % (2 * Nat.gcd major minor)) / 2

variable {major minor : Nat}

theorem rounded_le (major minor k : Nat) :
    2 * (major * rounded major minor k) ≤ 2 * (k * minor) + major := by
  have hle := Nat.mul_div_le (2 * (k * minor) + major) (2 * major)
  rwa [Nat.mul_assoc] at hle

theorem lt_rounded (h : 0 < major) (minor k : Nat) :
    2 * (k * minor) + major < 2 * (major * rounded major minor k) + 2 * major := by
  have hlt := Nat.lt_mul_div_succ (2 * (k * minor) + major) (Nat.mul_pos Nat.two_pos h)
  rwa [Nat.mul_add, Nat.mul_one, Nat.mul_assoc] at hlt

theorem eq_rounded {k r : Nat} (hle : 2 * (major * r) ≤ 2 * (k * minor) + major)
    (hlt : 2 * (k * minor) + major < 2 * (major * r) + 2 * major) : r = rounded major minor k := by
  symm
  apply Nat.div_eq_of_lt_le
  · rw [Nat.mul_comm r, Nat.mul_assoc]
    exact hle
  · rw [Nat.mul_comm (r + 1), Nat.mul_assoc, Nat.mul_succ, Nat.mul_add]
    exact hlt

theorem rounded_zero (major minor : Nat) : rounded major minor 0 = 0 := by
  rcases Nat.eq_zero_or_pos major with rfl | h
  · simp [rounded]
  · symm
    apply eq_rounded <;> omega

theorem rounded_major (h : 0 < major) (minor : Nat) : rounded major minor major = minor := by
  symm
  apply eq_rounded <;> omega

theorem rounded_le_minor (minor : Nat) {k : Nat} (hk : k ≤ major) : rounded major minor k ≤ minor := by
  rcases Nat.eq_zero_or_pos major with rfl | h
  · simp [rounded]
  · have hmul := Nat.mul_le_mul_right minor hk
    calc rounded major minor k ≤ rounded major minor major := Nat.div_le_div_right (by omega)
      _ = minor := rounded_major h minor

theorem rounded_succ (h : 0 < major) (hle : minor ≤ major) (k : Nat) :
    rounded major minor (k + 1) =
      if 2 * (major * rounded major minor k) + major ≤ 2 * ((k + 1) * minor) then rounded major minor k + 1
      else rounded major minor k := by
  have hlow := rounded_le major minor k
  have hup := lt_rounded h minor k
  have hk : (k + 1) * minor = k * minor + minor := Nat.succ_mul k minor
  symm
  split
  · rename_i hstep
    apply eq_rounded
    · rw [Nat.mul_succ]
      omega
    · rw [Nat.mul_succ]
      omega
  · rename_i hstay
    apply eq_rounded
    · omega
    · omega

theorem two_mul_peak (major minor : Nat) :
    2 * peak major minor = major - major % (2 * Nat.gcd major minor) := by
  obtain ⟨q, hq⟩ : 2 ∣ major - major % (2 * Nat.gcd major minor) :=
    Nat.dvd_trans (Nat.dvd_mul_right 2 _) (Nat.dvd_sub_mod major)
  rw [peak, hq, Nat.mul_div_cancel_left q Nat.two_pos]

theorem rounded_add_mod (major minor k : Nat) :
    2 * (major * rounded major minor k) + (2 * (k * minor) + major) % (2 * major) =
      2 * (k * minor) + major := by
  rw [rounded, ← Nat.mul_assoc]
  exact Nat.div_add_mod _ _

theorem excess_le_peak (major minor k : Nat) :
    major * rounded major minor k ≤ k * minor + peak major minor := by
  have hmod : (2 * (k * minor) + major) % (2 * major) % (2 * Nat.gcd major minor) =
      major % (2 * Nat.gcd major minor) := by
    rw [Nat.mod_mod_of_dvd _ (Nat.mul_dvd_mul_left 2 (Nat.gcd_dvd_left major minor))]
    obtain ⟨q, hq⟩ := Nat.mul_dvd_mul_left 2 (Nat.dvd_mul_left_of_dvd (Nat.gcd_dvd_right major minor) k)
    rw [hq, Nat.mul_add_mod]
  have hle := Nat.mod_le ((2 * (k * minor) + major) % (2 * major)) (2 * Nat.gcd major minor)
  have hsum := rounded_add_mod major minor k
  have hpeak := two_mul_peak major minor
  have hsub := Nat.mod_le major (2 * Nat.gcd major minor)
  omega

/-- A column whose point of the line is a given multiple of the greatest common divisor short of a row. -/
theorem exists_short (h : 0 < major) (minor q : Nat) :
    ∃ k < major, ∃ r, k * minor + Nat.gcd major minor * q = major * r := by
  have hpos : (0 : Int) < major := Int.natCast_pos.mpr h
  have hbezout := Nat.gcd_eq_gcd_ab major minor
  -- a column that the divisor's multiple is the opposite of, modulo `major`
  obtain ⟨k, hk⟩ := Int.eq_ofNat_of_zero_le
    (Int.emod_nonneg (-(Nat.gcdB major minor * q)) (Int.ne_of_gt hpos))
  have hlt := Int.emod_lt_of_pos (-(Nat.gcdB major minor * q)) hpos
  have hdiv := Int.mul_ediv_add_emod (-(Nat.gcdB major minor * q)) major
  rw [hk] at hlt hdiv
  have hdvd : (major : Int) ∣ ((k * minor + Nat.gcd major minor * q : Nat) : Int) := by
    refine ⟨Nat.gcdA major minor * q - minor * (-(Nat.gcdB major minor * q) / major), ?_⟩
    push_cast
    rw [hbezout, eq_sub_of_add_eq' hdiv]
    ring
  obtain ⟨r, hr⟩ := Int.natCast_dvd_natCast.mp hdvd
  exact ⟨k, Int.ofNat_lt.mp hlt, r, hr⟩

theorem exists_excess_eq_peak (h : 0 < major) (minor : Nat) :
    ∃ k < major, major * rounded major minor k = k * minor + peak major minor := by
  obtain ⟨q, hq⟩ := Nat.dvd_sub_mod (n := 2 * Nat.gcd major minor) major
  have hpeak : peak major minor = Nat.gcd major minor * q := by
    have htwo := two_mul_peak major minor
    rw [hq, Nat.mul_assoc] at htwo
    omega
  obtain ⟨k, hk, r, hr⟩ := exists_short h minor q
  have hle := Nat.mod_le major (2 * Nat.gcd major minor)
  have htwo := two_mul_peak major minor
  refine ⟨k, hk, ?_⟩
  have hrow : r = rounded major minor k := by
    apply eq_rounded
    · omega
    · omega
  rw [← hrow, hpeak, ← hr]

end DigitalLine
end Lib
end VialQmk
