import Mathlib.Algebra.Order.Ring.Nat
import Mathlib.Tactic.Ring

/-!
# Lib.Layout

Tables laid out in memory: a `Region` is `count` cells of one width after another. Cells of one
region do not overlap, cells of two chained regions neither. Multi-dimensional indices are row-major
(`index_lt`, `index_inj`).
-/

namespace VialQmk
namespace Lib

structure Region where
  base : Nat
  width : Nat
  count : Nat

namespace Region

def addr (r : Region) (i : Nat) : Nat := r.base + i * r.width

def stop (r : Region) : Nat := r.base + r.count * r.width

theorem base_le_addr (r : Region) (i : Nat) : r.base ≤ r.addr i := Nat.le_add_right _ _

theorem base_le_stop (r : Region) : r.base ≤ r.stop := Nat.le_add_right _ _

theorem addr_add_width_le {r : Region} {i j : Nat} (h : i < j) : r.addr i + r.width ≤ r.addr j := by
  have hm : (i + 1) * r.width ≤ j * r.width := Nat.mul_le_mul_right _ h
  rw [Nat.add_mul, Nat.one_mul] at hm
  simp only [addr]
  omega

theorem addr_add_width_le_stop {r : Region} {i : Nat} (h : i < r.count) :
    r.addr i + r.width ≤ r.stop := addr_add_width_le h

theorem addr_disjoint {r : Region} {i j : Nat} (h : i ≠ j) :
    r.addr i + r.width ≤ r.addr j ∨ r.addr j + r.width ≤ r.addr i := by
  rcases Nat.lt_or_gt_of_ne h with h | h
  · exact .inl (addr_add_width_le h)
  · exact .inr (addr_add_width_le h)

/-- Cells of a region that ends before another one starts lie before the cells of that one. -/
theorem addr_le_of_chain {r s : Region} (h : r.stop ≤ s.base) {i j : Nat} (hi : i < r.count) :
    r.addr i + r.width ≤ s.addr j :=
  (addr_add_width_le_stop hi).trans (h.trans (s.base_le_addr j))

end Region

theorem index_lt {a b n m : Nat} (ha : a < n) (hb : b < m) : a * m + b < n * m := by
  have hm : (a + 1) * m ≤ n * m := Nat.mul_le_mul_right _ ha
  rw [Nat.add_mul, Nat.one_mul] at hm
  omega

theorem index_inj {a a' b b' m : Nat} (hb : b < m) (hb' : b' < m)
    (h : a * m + b = a' * m + b') : a = a' ∧ b = b' := by
  have hm : 0 < m := by omega
  have hmod := congrArg (· % m) h
  have hdiv := congrArg (· / m) h
  simp only [Nat.mul_add_mod', Nat.mod_eq_of_lt hb, Nat.mod_eq_of_lt hb'] at hmod
  rw [Nat.mul_comm a, Nat.mul_comm a'] at hdiv
  simp only [Nat.mul_add_div hm, Nat.div_eq_of_lt hb, Nat.div_eq_of_lt hb', Nat.add_zero] at hdiv
  exact ⟨hdiv, hmod⟩

end Lib
end VialQmk
