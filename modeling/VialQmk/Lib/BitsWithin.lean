import Mathlib.Data.BitVec

/-!
# Lib.BitsWithin

Bit vectors as sets, and one within another.
-/

namespace VialQmk
namespace Lib

variable {w : Nat} {x y z u : BitVec w}

def Within (x y : BitVec w) : Prop := ∀ i, x.getLsbD i = true → y.getLsbD i = true

theorem and_eq_zero_iff_getLsbD : x &&& y = 0 ↔ ∀ i, x.getLsbD i = true → y.getLsbD i = false := by
  constructor
  · intro h i hx
    have hi := congrArg (fun v => BitVec.getLsbD v i) h
    simpa [hx] using hi
  · intro h
    refine BitVec.eq_of_getLsbD_eq fun i _ => ?_
    by_cases hx : x.getLsbD i = true
    · simp [h i hx]
    · simp [hx]

theorem within_iff_and_not_eq_zero : Within x y ↔ x &&& ~~~y = 0 := by
  rw [and_eq_zero_iff_getLsbD]
  refine forall_congr' fun i => ?_
  constructor
  · intro h hx
    simp [h hx]
  · intro h hx
    have hlt := BitVec.lt_of_getLsbD hx
    simpa [hlt] using h hx

instance : Decidable (Within x y) := decidable_of_iff _ within_iff_and_not_eq_zero.symm

namespace Within

theorem refl (x : BitVec w) : Within x x := fun _ h => h

theorem trans (hxy : Within x y) (hyz : Within y z) : Within x z := fun i h => hyz i (hxy i h)

@[simp] theorem zero_left (x : BitVec w) : Within 0 x := by
  intro i h
  simp at h

theorem allOnes (x : BitVec w) : Within x (BitVec.allOnes w) := by
  intro i h
  simpa using BitVec.lt_of_getLsbD h

theorem eq_zero (h : Within x 0) : x = 0 := by
  refine BitVec.eq_of_getLsbD_eq fun i _ => ?_
  have hzero : (0 : BitVec w).getLsbD i = false := by simp
  rw [hzero, Bool.eq_false_iff]
  intro hi
  cases hzero.symm.trans (h i hi)

theorem or_left (x y : BitVec w) : Within x (x ||| y) := by
  intro i h
  simp [h]

theorem or_right (x y : BitVec w) : Within y (x ||| y) := by
  intro i h
  simp [h]

theorem or (hx : Within x z) (hy : Within y z) : Within (x ||| y) z := by
  intro i h
  rw [BitVec.getLsbD_or, Bool.or_eq_true] at h
  rcases h with h | h
  · exact hx i h
  · exact hy i h

theorem or_of_left (h : Within x y) (z : BitVec w) : Within x (y ||| z) := h.trans (or_left y z)

theorem or_of_right (h : Within x z) (y : BitVec w) : Within x (y ||| z) := h.trans (or_right y z)

theorem or_mono (hxy : Within x y) (hzu : Within z u) : Within (x ||| z) (y ||| u) :=
  or (hxy.or_of_left u) (hzu.or_of_right y)

theorem xor (hx : Within x z) (hy : Within y z) : Within (x ^^^ y) z := by
  intro i h
  rw [BitVec.getLsbD_xor] at h
  by_cases hi : x.getLsbD i = true
  · exact hx i hi
  · refine hy i ?_
    rwa [Bool.eq_false_iff.mpr hi, Bool.false_xor] at h

theorem and_left (x y : BitVec w) : Within (x &&& y) x := by
  intro i h
  rw [BitVec.getLsbD_and, Bool.and_eq_true] at h
  exact h.1

theorem and_right (x y : BitVec w) : Within (x &&& y) y := by
  intro i h
  rw [BitVec.getLsbD_and, Bool.and_eq_true] at h
  exact h.2

theorem and_mono (hxy : Within x y) (hzu : Within z u) : Within (x &&& z) (y &&& u) := by
  intro i h
  rw [BitVec.getLsbD_and, Bool.and_eq_true] at h ⊢
  exact ⟨hxy i h.1, hzu i h.2⟩

theorem not_mono (h : Within x y) : Within (~~~y) (~~~x) := by
  intro i hi
  rw [BitVec.getLsbD_not, Bool.and_eq_true, Bool.not_eq_true'] at hi ⊢
  refine ⟨hi.1, ?_⟩
  by_contra hx
  cases (h i (by simpa using hx)).symm.trans hi.2

theorem and_not_or (h : Within x (y ||| z)) (u : BitVec w) : Within (x &&& ~~~u) (y &&& ~~~u ||| z) := by
  intro i hi
  rw [BitVec.getLsbD_and, Bool.and_eq_true] at hi
  have hor := h i hi.1
  rw [BitVec.getLsbD_or, Bool.or_eq_true] at hor ⊢
  refine hor.imp_left fun hy => ?_
  rw [BitVec.getLsbD_and, hy, hi.2]
  rfl

theorem or_and_not (h : Within x z) (y : BitVec w) : Within ((x ||| y) &&& ~~~z) y := by
  intro i hi
  rw [BitVec.getLsbD_and, BitVec.getLsbD_or, BitVec.getLsbD_not, Bool.and_eq_true, Bool.or_eq_true, Bool.and_eq_true,
    Bool.not_eq_true'] at hi
  obtain ⟨hx | hy, -, hoff⟩ := hi
  · cases (h i hx).symm.trans hoff
  · exact hy

theorem and_not (hxy : Within x y) (hxz : x &&& z = 0) : Within x (y &&& ~~~z) := by
  intro i h
  have hz := and_eq_zero_iff_getLsbD.mp hxz i h
  have hlt := BitVec.lt_of_getLsbD h
  rw [BitVec.getLsbD_and, BitVec.getLsbD_not, hxy i h, hz]
  simp [hlt]

theorem of_or (h : Within x (y ||| z)) (hxz : x &&& z = 0) : Within x y := by
  intro i hi
  have hor := h i hi
  rw [BitVec.getLsbD_or, Bool.or_eq_true] at hor
  rcases hor with hy | hz
  · exact hy
  · have hoff := and_eq_zero_iff_getLsbD.mp hxz i hi
    cases hz.symm.trans hoff

theorem and_eq_zero (hyz : Within y z) (hxz : x &&& z = 0) : x &&& y = 0 := by
  rw [and_eq_zero_iff_getLsbD] at hxz ⊢
  intro i hi
  by_contra hy
  have hon := hyz i (by simpa using hy)
  cases hon.symm.trans (hxz i hi)

end Within

section Union

variable {α : Type*} {f g : α → BitVec w} {a : α} {l : List α}

def unionOf (f : α → BitVec w) (l : List α) : BitVec w := l.foldr (fun a u => f a ||| u) 0

@[simp] theorem unionOf_nil : unionOf f [] = 0 := rfl

@[simp] theorem unionOf_cons : unionOf f (a :: l) = f a ||| unionOf f l := rfl

theorem unionOf_within (h : ∀ a ∈ l, Within (f a) x) : Within (unionOf f l) x := by
  induction l with
  | nil => exact .zero_left _
  | cons a l ih => exact .or (h a List.mem_cons_self) (ih fun b hb => h b (List.mem_cons_of_mem a hb))

theorem unionOf_mono (h : ∀ a, Within (f a) (g a)) : Within (unionOf f l) (unionOf g l) := by
  induction l with
  | nil => exact .refl _
  | cons a l ih => exact (h a).or_mono ih

theorem within_unionOf (h : a ∈ l) : Within (f a) (unionOf f l) := by
  induction l with
  | nil => cases h
  | cons b l ih =>
    rcases List.mem_cons.mp h with rfl | h
    · exact .or_left _ _
    · exact (ih h).or_of_right _

theorem unionOf_within_cons : Within (unionOf f l) (unionOf f (a :: l)) := .or_right _ _

theorem unionOf_within_erase [DecidableEq α] (a : α) : Within (unionOf f l) (f a ||| unionOf f (l.erase a)) := by
  induction l with
  | nil => exact .zero_left _
  | cons b l ih =>
    by_cases hb : b = a
    · subst hb
      rw [List.erase_cons_head]
      exact .refl _
    · rw [List.erase_cons_tail (by simpa using hb), unionOf_cons, unionOf_cons]
      refine .or ((Within.or_left _ _).or_of_right _) (ih.trans ?_)
      exact (Within.refl _).or_mono (.or_right _ _)

theorem unionOf_erase_within [DecidableEq α] (x : BitVec w) (a : α) :
    Within ((x ||| unionOf f l) &&& ~~~f a) (x ||| unionOf f (l.erase a)) := by
  intro i hi
  rw [BitVec.getLsbD_and, BitVec.getLsbD_or, BitVec.getLsbD_not, Bool.and_eq_true, Bool.or_eq_true, Bool.and_eq_true,
    Bool.not_eq_true'] at hi
  obtain ⟨hx | hl, -, hoff⟩ := hi
  · exact Within.or_left _ _ i hx
  · have herase := unionOf_within_erase a i hl
    rw [BitVec.getLsbD_or, hoff, Bool.false_or] at herase
    exact Within.or_right _ _ i herase

end Union

end Lib
end VialQmk
