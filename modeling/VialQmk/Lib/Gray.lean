import Mathlib.Algebra.Order.Group.Abs
import Mathlib.Algebra.Order.Group.Int
import Mathlib.Data.List.Chain
import Mathlib.Tactic.Ring

/-!
# Lib.Gray

Positions of a shaft as two bits, one of which changes from each position to the next.

* `graySum_path`: along a path that goes one position at a time the steps add up to how far it has come.
-/

namespace VialQmk
namespace Lib

def grayCode (position : Int) : UInt8 :=
  match position % 4 with
  | 0 => 0
  | 1 => 2
  | 2 => 3
  | _ => 1

def grayPosition (bits : UInt8) : Int :=
  match bits with
  | 0 => 0
  | 2 => 1
  | 3 => 2
  | _ => 3

/-- One position forth or back; the two bits do not tell which way half a turn went. -/
def grayStep (prev next : UInt8) : Int :=
  match (grayPosition next - grayPosition prev) % 4 with
  | 1 => 1
  | 3 => -1
  | _ => 0

def graySum (prev : UInt8) : List UInt8 → Int
  | [] => 0
  | next :: samples => grayStep prev next + graySum next samples

theorem getLastD_append {α : Type*} (xs ys : List α) (a : α) : (xs ++ ys).getLastD a = ys.getLastD (xs.getLastD a) := by
  rw [List.getLastD_eq_getLast?, List.getLastD_eq_getLast?, List.getLastD_eq_getLast?, List.getLast?_append,
    Option.getD_or]

theorem graySum_append (prev : UInt8) (xs ys : List UInt8) :
    graySum prev (xs ++ ys) = graySum prev xs + graySum (xs.getLastD prev) ys := by
  induction xs generalizing prev with
  | nil => rw [List.nil_append, graySum, zero_add, List.getLastD_nil]
  | cons x xs ih =>
    rw [List.cons_append, graySum, ih, graySum, List.getLastD_cons]
    ring

theorem grayPosition_grayCode (position : Int) : grayPosition (grayCode position) = position % 4 := by
  have hlow := Int.emod_nonneg position (show (4 : Int) ≠ 0 by decide)
  have hup := Int.emod_lt_of_pos position (show (0 : Int) < 4 by decide)
  rw [grayCode]
  generalize position % 4 = q at hlow hup ⊢
  have hq : q = 0 ∨ q = 1 ∨ q = 2 ∨ q = 3 := by omega
  rcases hq with rfl | rfl | rfl | rfl <;> rfl

theorem grayStep_grayCode {p q : Int} (h : |q - p| ≤ 1) : grayStep (grayCode p) (grayCode q) = q - p := by
  rw [grayStep, grayPosition_grayCode, grayPosition_grayCode]
  have hq : q = p - 1 ∨ q = p ∨ q = p + 1 := by
    obtain ⟨hlow, hup⟩ := abs_le.mp h
    omega
  rcases hq with rfl | rfl | rfl
  · rw [show ((p - 1) % 4 - p % 4) % 4 = 3 by omega]
    show (-1 : Int) = p - 1 - p
    ring
  · rw [sub_self, Int.zero_emod, sub_self]
    rfl
  · rw [show ((p + 1) % 4 - p % 4) % 4 = 1 by omega]
    show (1 : Int) = p + 1 - p
    ring

theorem graySum_path (path : List Int) (p : Int) (h : (p :: path).IsChain fun a b => |b - a| ≤ 1) :
    graySum (grayCode p) (path.map grayCode) = path.getLastD p - p := by
  induction path generalizing p with
  | nil =>
    rw [List.map_nil, graySum, List.getLastD_nil, sub_self]
  | cons q path ih =>
    rw [List.isChain_cons_cons] at h
    rw [List.map_cons, graySum, grayStep_grayCode h.1, ih q h.2, List.getLastD_cons]
    ring

end Lib
end VialQmk
