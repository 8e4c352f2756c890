import Mathlib.Data.List.Basic
import Mathlib.Tactic.Ring

/-!
# Lib.Midpoint

An octant of a circle by an integer error term, one column after another.

* `Octant.step`: what a pass keeps, the squared distance from the centre as a linear form of the error term.
* `Octant.near`: for a start value between minus the diameter and one, no point is farther than one from the circle.
* `octantFrom_chain`: the points are neighbours, one after another.
* `mirrors`: the images of a point on the axes and the diagonals.
-/

namespace VialQmk
namespace Lib

structure Midpoint where
  x : Int
  y : Int
  err : Int
deriving DecidableEq, Repr

namespace Midpoint

def step (s : Midpoint) : Midpoint :=
  if s.err < 0 then ⟨s.x + 1, s.y, s.err + (2 * (s.x + 1) + 1)⟩
  else ⟨s.x + 1, s.y - 1, s.err + (2 * (s.x + 1 - (s.y - 1)) + 1)⟩

def point (s : Midpoint) : Int × Int := (s.x, s.y)

def octantFrom : Nat → Midpoint → List (Int × Int)
  | 0, _ => []
  | passes + 1, s => if s.x < s.y then s.step.point :: octantFrom passes s.step else []

theorem step_of_neg {s : Midpoint} (h : s.err < 0) : s.step = ⟨s.x + 1, s.y, s.err + (2 * (s.x + 1) + 1)⟩ :=
  if_pos h

theorem step_of_nonneg {s : Midpoint} (h : ¬ s.err < 0) :
    s.step = ⟨s.x + 1, s.y - 1, s.err + (2 * (s.x + 1 - (s.y - 1)) + 1)⟩ :=
  if_neg h

end Midpoint

/-- No farther than one from the circle of this radius. -/
structure NearCircle (radius : Int) (p : Int × Int) : Prop where
  low : (radius - 1) * (radius - 1) ≤ p.1 * p.1 + p.2 * p.2
  up : p.1 * p.1 + p.2 * p.2 ≤ (radius + 1) * (radius + 1)

def Adjacent (p q : Int × Int) : Prop := p ≠ q ∧ (q.1 - p.1).natAbs ≤ 1 ∧ (q.2 - p.2).natAbs ≤ 1

/-- What holds of every point of the octant; `e₀` is the error term that it starts with. -/
structure Octant (radius e₀ : Int) (s : Midpoint) : Prop where
  x_nonneg : 0 ≤ s.x
  x_le : s.x ≤ radius
  y_nonneg : 0 ≤ s.y
  y_le : s.y ≤ radius
  passed : s.x ≤ s.y + 1
  off : s.x * s.x + s.y * s.y = radius * radius + (s.err - 2 * s.x + s.y - radius - e₀)
  err_low : 2 * s.x - 2 * s.y ≤ s.err
  err_up : s.err ≤ 2 * s.x + 2
  err_lt : s.x < s.y → s.err ≤ 2 * s.x + 1
  inner : 0 < radius → radius * radius + 1 - 2 * radius ≤ s.x * s.x + s.y * s.y
  outer : s.x * s.x + s.y * s.y ≤ radius * radius + 2 * radius + 1

namespace Octant

variable {radius e₀ : Int} {s : Midpoint}

theorem start (hradius : 0 ≤ radius) (hlow : -2 * radius ≤ e₀) (hup : e₀ ≤ 1) : Octant radius e₀ ⟨0, radius, e₀⟩ where
  x_nonneg := Int.le_refl 0
  x_le := hradius
  y_nonneg := hradius
  y_le := Int.le_refl radius
  passed := by simp only; omega
  off := by simp only; ring
  err_low := by simp only; omega
  err_up := by simp only; omega
  err_lt _ := by simp only; omega
  inner h := by simp only; omega
  outer := by simp only; omega

theorem stay (hlow : -2 * radius ≤ e₀) (h : Octant radius e₀ s) (hguard : s.x < s.y) (hneg : s.err < 0) :
    Octant radius e₀ ⟨s.x + 1, s.y, s.err + (2 * (s.x + 1) + 1)⟩ := by
  obtain ⟨hx, hxr, hy, hyr, hpassed, hoff, herrLow, herrUp, herrLt, hinner, houter⟩ := h
  have hnext : (s.x + 1) * (s.x + 1) = s.x * s.x + 2 * s.x + 1 := by ring
  refine ⟨?_, ?_, hy, hyr, ?_, ?_, ?_, ?_, fun _ => ?_, fun hradius => ?_, ?_⟩ <;> simp only [hnext]
  · omega
  · omega
  · omega
  · omega
  · omega
  · omega
  · omega
  · have := hinner hradius
    omega
  · omega

theorem drop (hup : e₀ ≤ 1) (h : Octant radius e₀ s) (hguard : s.x < s.y) (hpos : ¬ s.err < 0) :
    Octant radius e₀ ⟨s.x + 1, s.y - 1, s.err + (2 * (s.x + 1 - (s.y - 1)) + 1)⟩ := by
  obtain ⟨hx, hxr, hy, hyr, hpassed, hoff, herrLow, herrUp, herrLt, hinner, houter⟩ := h
  have herr := herrLt hguard
  have hnext : (s.x + 1) * (s.x + 1) = s.x * s.x + 2 * s.x + 1 := by ring
  have hlast : (s.y - 1) * (s.y - 1) = s.y * s.y - 2 * s.y + 1 := by ring
  refine ⟨?_, ?_, ?_, ?_, ?_, ?_, ?_, ?_, fun hroom => ?_, fun hradius => ?_, ?_⟩ <;> simp only [hnext, hlast]
  · omega
  · omega
  · omega
  · omega
  · omega
  · omega
  · omega
  · omega
  · simp only at hroom
    omega
  · omega
  · omega

theorem step (hlow : -2 * radius ≤ e₀) (hup : e₀ ≤ 1) (h : Octant radius e₀ s) (hguard : s.x < s.y) :
    Octant radius e₀ s.step := by
  by_cases hneg : s.err < 0
  · rw [Midpoint.step_of_neg hneg]
    exact h.stay hlow hguard hneg
  · rw [Midpoint.step_of_nonneg hneg]
    exact h.drop hup hguard hneg

theorem near (h : Octant radius e₀ s) (hradius : 0 < radius) : NearCircle radius s.point where
  low := by
    have hinner := h.inner hradius
    have hsquare : (radius - 1) * (radius - 1) = radius * radius + 1 - 2 * radius := by ring
    rw [hsquare]
    exact hinner
  up := by
    have houter := h.outer
    have hsquare : (radius + 1) * (radius + 1) = radius * radius + 2 * radius + 1 := by ring
    rw [hsquare]
    exact houter

end Octant

namespace Midpoint

variable {radius e₀ : Int}

theorem octantFrom_all {P : Midpoint → Prop} (hstep : ∀ s, P s → s.x < s.y → P s.step) {passes : Nat} {s : Midpoint}
    (h : P s) : ∀ p ∈ octantFrom passes s, ∃ s', P s' ∧ p = s'.point := by
  induction passes generalizing s with
  | zero => intro p hp; cases hp
  | succ passes ih =>
    intro p hp
    rw [octantFrom] at hp
    split at hp
    · rename_i hguard
      rcases List.mem_cons.mp hp with rfl | hp
      · exact ⟨s.step, hstep s h hguard, rfl⟩
      · exact ih (hstep s h hguard) p hp
    · cases hp

theorem adjacent_step (s : Midpoint) : Adjacent s.point s.step.point := by
  by_cases hneg : s.err < 0
  · rw [step_of_neg hneg]
    refine ⟨fun heq => ?_, ?_, ?_⟩
    · have hx : s.x = s.x + 1 := congrArg Prod.fst heq
      omega
    · simp only [point]
      omega
    · simp only [point]
      omega
  · rw [step_of_nonneg hneg]
    refine ⟨fun heq => ?_, ?_, ?_⟩
    · have hx : s.x = s.x + 1 := congrArg Prod.fst heq
      omega
    · simp only [point]
      omega
    · simp only [point]
      omega

theorem octantFrom_chain (passes : Nat) (s : Midpoint) : (s.point :: octantFrom passes s).IsChain Adjacent := by
  induction passes generalizing s with
  | zero => exact List.IsChain.singleton _
  | succ passes ih =>
    rw [octantFrom]
    split
    · exact List.isChain_cons_cons.mpr ⟨adjacent_step s, ih s.step⟩
    · exact List.IsChain.singleton _

theorem step_closer (s : Midpoint) : s.step.y - s.step.x ≤ s.y - s.x - 1 := by
  by_cases hneg : s.err < 0
  · rw [step_of_neg hneg]
    simp only
    omega
  · rw [step_of_nonneg hneg]
    simp only
    omega

theorem octantFrom_last {passes : Nat} {s : Midpoint} (h : s.y - s.x ≤ passes) :
    ∃ p ∈ s.point :: octantFrom passes s, p.2 ≤ p.1 := by
  induction passes generalizing s with
  | zero =>
    refine ⟨s.point, List.mem_cons_self, ?_⟩
    simp only [point]
    omega
  | succ passes ih =>
    by_cases hguard : s.x < s.y
    · have hcloser := s.step_closer
      obtain ⟨p, hp, hdiag⟩ := ih (s := s.step) (by omega)
      rw [octantFrom, if_pos hguard]
      exact ⟨p, List.mem_cons_of_mem _ hp, hdiag⟩
    · exact ⟨s.point, List.mem_cons_self, Int.not_lt.mp hguard⟩

end Midpoint

def mirrors (p : Int × Int) : List (Int × Int) :=
  [(p.1, p.2), (-p.1, p.2), (p.1, -p.2), (-p.1, -p.2), (p.2, p.1), (-p.2, p.1), (p.2, -p.1), (-p.2, -p.1)]

variable {p q : Int × Int}

theorem mem_mirrors : q ∈ mirrors p ↔ (q.1 = p.1 ∨ q.1 = -p.1) ∧ (q.2 = p.2 ∨ q.2 = -p.2) ∨
      (q.1 = p.2 ∨ q.1 = -p.2) ∧ (q.2 = p.1 ∨ q.2 = -p.1) := by
  simp only [mirrors, List.mem_cons, List.not_mem_nil, or_false, Prod.ext_iff, and_or_left, or_and_right, or_assoc]

theorem opposite_trans {a b c : Int} (hb : b = a ∨ b = -a) (hc : c = b ∨ c = -b) : c = a ∨ c = -a := by
  omega

theorem mirrors_trans {m : Int × Int} (hq : q ∈ mirrors p) (hm : m ∈ mirrors q) : m ∈ mirrors p := by
  rw [mem_mirrors] at hq hm ⊢
  rcases hq with ⟨h1, h2⟩ | ⟨h1, h2⟩
  · rcases hm with ⟨h1', h2'⟩ | ⟨h1', h2'⟩
    · exact .inl ⟨opposite_trans h1 h1', opposite_trans h2 h2'⟩
    · exact .inr ⟨opposite_trans h2 h1', opposite_trans h1 h2'⟩
  · rcases hm with ⟨h1', h2'⟩ | ⟨h1', h2'⟩
    · exact .inr ⟨opposite_trans h1 h1', opposite_trans h2 h2'⟩
    · exact .inl ⟨opposite_trans h2 h1', opposite_trans h1 h2'⟩

theorem square_of_mirror (hq : q ∈ mirrors p) : q.1 * q.1 + q.2 * q.2 = p.1 * p.1 + p.2 * p.2 := by
  rcases mem_mirrors.mp hq with ⟨h1 | h1, h2 | h2⟩ | ⟨h1 | h1, h2 | h2⟩ <;> rw [h1, h2] <;> ring

theorem NearCircle.mirror {radius : Int} (h : NearCircle radius p) (hq : q ∈ mirrors p) : NearCircle radius q where
  low := (square_of_mirror hq).symm ▸ h.low
  up := (square_of_mirror hq).symm ▸ h.up

end Lib
end VialQmk
