import Mathlib.Tactic.Linarith
import VialQmk.Painter.Drawing

/-!
# Painter.Arc

The loops of `qp_ellipse` (`qp_draw_ellipse.c`). Both are the same, with the two axes the other way round: one
coordinate goes up by one each time, and the other goes down when an error says so.

* `head_step`: what holds at the guard, from one pass to the next.
* `drawn_head`: what is drawn is inside of the sizes.
* `guard_ends`: the loop ends.
-/

namespace VialQmk
namespace Painter

def toInt32 (v : Int) : Int := (v + 2147483648) % 4294967296 - 2147483648

def Fits32 (v : Int) : Prop := -2147483648 ≤ v ∧ v < 2147483648
deriving Decidable

theorem toInt32_eq {v : Int} (h : Fits32 v) : toInt32 v = v := by
  obtain ⟨hlow, hup⟩ := h
  rw [toInt32]
  omega

/-- The coordinate that goes up, the one that goes down and the error. -/
structure ArcState where
  rise : Int
  fall : Int
  delta : Int
deriving DecidableEq, Repr

/-- The squares of the sizes along the coordinate that goes up and the one that goes down. -/
structure ArcSizes where
  riseSq : Int
  fallSq : Int
deriving DecidableEq, Repr

/-- The state in front of the loop, for a size along the coordinate that goes down. -/
def ArcSizes.start (z : ArcSizes) (size : Nat) : ArcState :=
  ⟨0, toInt16 size, toInt32 (2 * z.fallSq + z.riseSq * (1 - 2 * size))⟩

def ArcSizes.Guard (z : ArcSizes) (s : ArcState) : Prop := z.fallSq * s.rise ≤ z.riseSq * s.fall
deriving Decidable

def ArcSizes.step (z : ArcSizes) (s : ArcState) : ArcState :=
  let s1 : ArcState :=
    if s.delta ≥ 0 then ⟨s.rise, toInt16 (s.fall - 1), toInt32 (s.delta + 4 * z.riseSq * (1 - s.fall))⟩ else s
  ⟨toInt16 (s1.rise + 1), s1.fall, toInt32 (s1.delta + z.fallSq * (4 * s1.rise + 6))⟩

def ArcSizes.state (z : ArcSizes) (size : Nat) (n : Nat) : ArcState := z.step^[n] (z.start size)

/-- The products of the guard and of the pass behind it fit in 32 bits. -/
structure ArcSizes.PassFits (z : ArcSizes) (s : ArcState) : Prop where
  guardRise : Fits32 (z.fallSq * s.rise)
  guardFall : Fits32 (z.riseSq * s.fall)
  fall : z.Guard s → s.delta ≥ 0 → Fits32 (4 * z.riseSq * (1 - s.fall))
  rise : z.Guard s → Fits32 (z.fallSq * (4 * s.rise + 6))

structure ArcSizes.ProductsFit (z : ArcSizes) (size : Nat) : Prop where
  four : Fits32 (4 * z.riseSq)
  two : Fits32 (2 * z.fallSq)
  start : Fits32 (z.riseSq * (1 - 2 * size))
  pass : ∀ n, (∀ j < n, z.Guard (z.state size j)) → z.PassFits (z.state size n)

instance (z : ArcSizes) (s : ArcState) : Decidable (z.PassFits s) :=
  decidable_of_iff (Fits32 (z.fallSq * s.rise) ∧ Fits32 (z.riseSq * s.fall) ∧
      (z.Guard s → s.delta ≥ 0 → Fits32 (4 * z.riseSq * (1 - s.fall))) ∧
      (z.Guard s → Fits32 (z.fallSq * (4 * s.rise + 6))))
    ⟨fun h => ⟨h.1, h.2.1, h.2.2.1, h.2.2.2⟩, fun h => ⟨h.guardRise, h.guardFall, h.fall, h.rise⟩⟩

theorem ArcSizes.productsFit_of_ends {z : ArcSizes} {size : Nat} (k : Nat) (hend : ¬z.Guard (z.state size k))
    (hfour : Fits32 (4 * z.riseSq)) (htwo : Fits32 (2 * z.fallSq)) (hstart : Fits32 (z.riseSq * (1 - 2 * size)))
    (hpass : ∀ n < k + 1, z.PassFits (z.state size n)) : z.ProductsFit size := by
  refine ⟨hfour, htwo, hstart, fun n hn => ?_⟩
  rcases Nat.lt_or_ge k n with h | h
  · exact absurd (hn k h) hend
  · exact hpass n (Nat.lt_succ_of_le h)

/-- Twice the sum of what two neighbouring points are off the ellipse. -/
def offArc (z : ArcSizes) (u v : Int) : Int :=
  2 * z.fallSq * u ^ 2 + z.riseSq * (2 * v ^ 2 - 2 * v + 1) - 2 * (z.riseSq * z.fallSq)

variable {z : ArcSizes}

theorem offArc_rise (u v : Int) : offArc z (u + 1) v = offArc z u v + z.fallSq * (4 * u + 2) := by
  rw [offArc, offArc]
  ring

theorem offArc_fall (u v : Int) : offArc z u (v - 1) = offArc z u v + 4 * z.riseSq * (1 - v) := by
  rw [offArc, offArc]
  ring

theorem offArc_next (u v : Int) : offArc z (u + 1 + 1) v = offArc z (u + 1) v + z.fallSq * (4 * u + 6) := by
  rw [offArc_rise (u + 1) v]
  ring

theorem fits32_toInt32 (v : Int) : Fits32 (toInt32 v) := by
  rw [Fits32, toInt32]
  omega

theorem step_rise (s : ArcState) : (z.step s).rise = toInt16 (s.rise + 1) := by
  rw [ArcSizes.step]
  simp only
  split <;> rfl

theorem step_of_neg {s : ArcState} (h : s.delta < 0) :
    z.step s = ⟨toInt16 (s.rise + 1), s.fall, toInt32 (s.delta + z.fallSq * (4 * s.rise + 6))⟩ := by
  rw [ArcSizes.step]
  simp only [if_neg (Int.not_le.mpr h)]

theorem step_of_nonneg {s : ArcState} (h : 0 ≤ s.delta) :
    z.step s = ⟨toInt16 (s.rise + 1), toInt16 (s.fall - 1),
      toInt32 (toInt32 (s.delta + 4 * z.riseSq * (1 - s.fall)) + z.fallSq * (4 * s.rise + 6))⟩ := by
  rw [ArcSizes.step]
  simp only [if_pos (show s.delta ≥ 0 from h)]

theorem state_succ (size n : Nat) : z.state size (n + 1) = z.step (z.state size n) :=
  Function.iterate_succ_apply' _ _ _

theorem state_delta_fits (size n : Nat) : Fits32 (z.state size n).delta := by
  cases n with
  | zero => exact fits32_toInt32 _
  | succ n =>
    rw [state_succ]
    rcases Int.lt_or_le (z.state size n).delta 0 with h | h
    · rw [step_of_neg h]
      exact fits32_toInt32 _
    · rw [step_of_nonneg h]
      exact fits32_toInt32 _

/-- At the guard of pass `n`: where it holds, the point is inside of the ellipse and the error is exact. -/
structure Head (z : ArcSizes) (size n : Nat) (s : ArcState) : Prop where
  rise : s.rise = n
  fall_le : s.fall ≤ size
  inside : z.Guard s → offArc z n s.fall < 0
  delta : z.Guard s → s.delta = offArc z (n + 1) s.fall

/-- Where the guard holds for the next pass though the second coordinate goes down, there was room for it. -/
theorem beyond_guard {n : Nat} {s s' : ArcState} (hrise : s'.rise = (n + 1 : Nat)) (hfall : s'.fall = s.fall - 1)
    (hguard : z.Guard s') : z.fallSq * n + z.riseSq + z.fallSq ≤ z.riseSq * s.fall := by
  rw [ArcSizes.Guard, hrise, hfall, Int.natCast_succ] at hguard
  linarith

section Positive

variable {size n : Nat} {s : ArcState} (hA : 0 < z.riseSq) (hB : 0 < z.fallSq)

include hA hB

theorem fall_nonneg (hrise : s.rise = n) (hguard : z.Guard s) : 0 ≤ s.fall := by
  have hleft : 0 ≤ z.fallSq * s.rise := by
    rw [hrise]
    exact Int.mul_nonneg (Int.le_of_lt hB) (Int.natCast_nonneg n)
  exact nonneg_of_mul_nonneg_right (Int.le_trans hleft hguard) hA

omit hA in
theorem offArc_neg_of_room {v : Int} (hinside : offArc z n v < 0)
    (hroom : z.fallSq * n + z.riseSq + z.fallSq ≤ z.riseSq * v) : offArc z ((n : Int) + 1) (v - 1) < 0 := by
  rw [offArc_fall, offArc_rise]
  linarith

omit hA in
theorem Head.stay (hn : n < 32767) (h : Head z size n s) (hguard : z.Guard s) (hneg : s.delta < 0)
    (hdelta : Fits32 s.delta) (hgrow : Fits32 (z.fallSq * (4 * (n : Int) + 6))) :
    Head z size (n + 1) (z.step s) := by
  have hnonneg : 0 ≤ z.fallSq * (4 * (n : Int) + 6) := Int.mul_nonneg (Int.le_of_lt hB) (by omega)
  rw [step_of_neg hneg]
  refine ⟨?_, h.fall_le, fun _ => ?_, fun _ => ?_⟩
  · rw [h.rise, toInt16_eq (by omega) (by omega)]
    rfl
  · rw [Int.natCast_succ, ← h.delta hguard]
    exact hneg
  · show toInt32 (s.delta + z.fallSq * (4 * s.rise + 6)) = _
    rw [h.rise, Int.natCast_succ, offArc_next, ← h.delta hguard]
    exact toInt32_eq ⟨Int.le_trans hdelta.1 (Int.le_add_of_nonneg_right hnonneg),
      Int.lt_of_le_of_lt (by omega) hgrow.2⟩

theorem drop_exact (hinside : offArc z n s.fall < 0) (h : s.delta = offArc z ((n : Int) + 1) s.fall) (hpos : 0 ≤ s.delta) (hdelta : Fits32 s.delta)
    (hroom : z.fallSq * n + z.riseSq + z.fallSq ≤ z.riseSq * s.fall)
    (hdrop : Fits32 (4 * z.riseSq * (1 - s.fall))) (hfar : Fits32 (z.fallSq * (4 * ((n : Int) + 1) + 6))) :
    toInt32 (toInt32 (s.delta + 4 * z.riseSq * (1 - s.fall)) + z.fallSq * (4 * (n : Int) + 6)) =
      offArc z ((n : Int) + 1 + 1) (s.fall - 1) := by
  have hnonneg : 0 ≤ z.fallSq * (n : Int) := Int.mul_nonneg (Int.le_of_lt hB) (Int.natCast_nonneg n)
  have hgrow : 0 ≤ z.fallSq * (4 * (n : Int) + 6) := Int.mul_nonneg (Int.le_of_lt hB) (by omega)
  have hfall : 0 < s.fall := by
    refine (mul_pos_iff_of_pos_left hA).mp ?_
    linarith
  have hdropLe : 4 * z.riseSq * (1 - s.fall) ≤ 0 :=
    Int.mul_nonpos_of_nonneg_of_nonpos (by omega) (by omega)
  have hsum : toInt32 (s.delta + 4 * z.riseSq * (1 - s.fall)) = s.delta + 4 * z.riseSq * (1 - s.fall) :=
    toInt32_eq ⟨Int.le_trans hdrop.1 (Int.le_add_of_nonneg_left hpos),
      Int.lt_of_le_of_lt (add_le_of_nonpos_right hdropLe) hdelta.2⟩
  have hfallen : s.delta + 4 * z.riseSq * (1 - s.fall) = offArc z ((n : Int) + 1) (s.fall - 1) := by
    rw [h, offArc_fall]
  have hbelow := offArc_neg_of_room hB hinside hroom
  rw [hsum, hfallen, offArc_next]
  apply toInt32_eq
  constructor
  · rw [← hfallen]
    linarith [hdrop.1]
  · have hmore : z.fallSq * (4 * ((n : Int) + 1) + 6) = z.fallSq * (4 * (n : Int) + 6) + 4 * z.fallSq := by
      ring
    linarith [hfar.2]

theorem Head.drop (hn : n < 32767) (hsize : size < 32768) (h : Head z size n s) (hguard : z.Guard s)
    (hpos : 0 ≤ s.delta) (hdelta : Fits32 s.delta) (hdrop : Fits32 (4 * z.riseSq * (1 - s.fall)))
    (hnext : z.PassFits (z.step s)) : Head z size (n + 1) (z.step s) := by
  have hfall := fall_nonneg hA hB h.rise hguard
  have hfallLe := h.fall_le
  have hfallEq : toInt16 (s.fall - 1) = s.fall - 1 := toInt16_eq (by omega) (by omega)
  have hrise : toInt16 (s.rise + 1) = (n + 1 : Nat) := by
    rw [h.rise, toInt16_eq (by omega) (by omega)]
    rfl
  rw [step_of_nonneg hpos, hrise, hfallEq] at hnext ⊢
  refine ⟨rfl, by simp only; omega, fun hg => ?_, fun hg => ?_⟩
  · rw [Int.natCast_succ]
    exact offArc_neg_of_room hB (h.inside hguard) (beyond_guard rfl rfl hg)
  · show toInt32 (toInt32 (s.delta + 4 * z.riseSq * (1 - s.fall)) + z.fallSq * (4 * s.rise + 6)) = _
    rw [h.rise, Int.natCast_succ]
    exact drop_exact hA hB (h.inside hguard) (h.delta hguard) hpos hdelta (beyond_guard rfl rfl hg) hdrop (hnext.rise hg)

theorem head_step (hn : n < 32767) (hsize : size < 32768) (h : Head z size n s) (hguard : z.Guard s)
    (hdelta : Fits32 s.delta) (hfits : z.PassFits s) (hnext : z.PassFits (z.step s)) :
    Head z size (n + 1) (z.step s) := by
  rcases Int.lt_or_le s.delta 0 with hneg | hpos
  · have hgrow := hfits.rise hguard
    rw [h.rise] at hgrow
    exact h.stay hB hn hguard hneg hdelta hgrow
  · exact h.drop hA hB hn hsize hguard hpos hdelta (hfits.fall hguard hpos) hnext

end Positive

def arcSizes (rise fall : Nat) : ArcSizes := ⟨(rise : Int) * rise, (fall : Int) * fall⟩

section Sizes

variable {su sv n : Nat}

theorem size_lt {size : Nat} (h : Fits32 (2 * ((size : Int) * size))) : size < 32768 := by
  by_contra hc
  have hle : (32768 : Int) ≤ size := by omega
  have hmul := Int.mul_le_mul hle hle (by decide) (by omega)
  have hup := h.2
  omega

theorem square_pos {size : Nat} (h : 0 < size) : 0 < (size : Int) * size :=
  Int.mul_pos (Int.natCast_pos.mpr h) (Int.natCast_pos.mpr h)

theorem rise_lt (hu : 0 < su) (hv : 0 < sv) {fall : Int} (h : offArc (arcSizes su sv) n fall < 0) : n < su := by
  have hA := square_pos hu
  have hB := square_pos hv
  have hsquare : 0 ≤ 2 * fall ^ 2 - 2 * fall + 1 := by
    have h1 := sq_nonneg fall
    have h2 := sq_nonneg (fall - 1)
    linarith
  have hrest := Int.mul_nonneg (Int.le_of_lt hA) hsquare
  have hlt : ((sv : Int) * sv) * (n : Int) ^ 2 < ((sv : Int) * sv) * (su : Int) ^ 2 := by
    rw [offArc, arcSizes] at h
    simp only at h
    linarith
  have hsq : (n : Int) ^ 2 < (su : Int) ^ 2 := Int.lt_of_mul_lt_mul_left hlt (Int.le_of_lt hB)
  exact Int.ofNat_lt.mp (lt_of_pow_lt_pow_left₀ 2 (Int.natCast_nonneg su) hsq)

theorem head_start (hu : 0 < su) (hv : 0 < sv) (hfits : (arcSizes su sv).ProductsFit sv) :
    Head (arcSizes su sv) sv 0 ((arcSizes su sv).state sv 0) := by
  have hA := square_pos hu
  have hB := square_pos hv
  have hsv : sv < 32768 := size_lt hfits.two
  have hfall : toInt16 (sv : Int) = sv := toInt16_eq (by omega) (by omega)
  have hneg : (sv : Int) * ((su : Int) * su) ≥ (su : Int) * su := by
    have hone : (1 : Int) ≤ sv := by omega
    have hmul := Int.mul_le_mul_of_nonneg_right hone (Int.le_of_lt hA)
    linarith
  have hzero : offArc (arcSizes su sv) (0 : Nat) sv = ((su : Int) * su) * (1 - 2 * sv) := by
    rw [offArc, arcSizes]
    push_cast
    ring
  have hone : offArc (arcSizes su sv) ((0 : Nat) + 1) sv =
      2 * ((sv : Int) * sv) + ((su : Int) * su) * (1 - 2 * sv) := by
    rw [offArc, arcSizes]
    push_cast
    ring
  have hstart : (arcSizes su sv).state sv 0 =
      ⟨0, sv, toInt32 (2 * ((sv : Int) * sv) + ((su : Int) * su) * (1 - 2 * sv))⟩ := by
    show ArcState.mk 0 (toInt16 sv) _ = _
    rw [hfall]
    rfl
  have htwo := hfits.two
  have hdrop := hfits.start
  rw [hstart]
  refine ⟨rfl, Int.le_refl _, fun _ => ?_, fun _ => ?_⟩
  · show offArc (arcSizes su sv) (0 : Nat) sv < 0
    rw [hzero]
    linarith
  · show toInt32 _ = offArc (arcSizes su sv) ((0 : Nat) + 1) sv
    rw [hone]
    apply toInt32_eq
    rw [arcSizes] at htwo hdrop
    obtain ⟨-, hup⟩ := htwo
    obtain ⟨hlow, -⟩ := hdrop
    simp only at hup hlow
    constructor
    · linarith
    · linarith

theorem head_state (hu : 0 < su) (hv : 0 < sv) (hfits : (arcSizes su sv).ProductsFit sv) (n : Nat)
    (hguard : ∀ j < n, (arcSizes su sv).Guard ((arcSizes su sv).state sv j)) :
    Head (arcSizes su sv) sv n ((arcSizes su sv).state sv n) := by
  have hsu : su < 32768 := by
    have hfour := hfits.four
    apply size_lt
    rw [arcSizes] at hfour
    obtain ⟨-, hup⟩ := hfour
    have hA := Int.mul_nonneg (Int.natCast_nonneg su) (Int.natCast_nonneg su)
    simp only at hup
    constructor <;> linarith
  induction n with
  | zero => exact head_start hu hv hfits
  | succ n ih =>
    have hprev := ih fun j hj => hguard j (Nat.lt_succ_of_lt hj)
    have hg := hguard n (Nat.lt_succ_self n)
    have hn := rise_lt hu hv (hprev.inside hg)
    have hnext := hfits.pass (n + 1) hguard
    rw [state_succ] at hnext ⊢
    exact head_step (square_pos hu) (square_pos hv) (by omega) (size_lt hfits.two) hprev hg (state_delta_fits _ _)
      (hfits.pass n fun j hj => hguard j (Nat.lt_succ_of_lt hj)) hnext

theorem state_zero (su : Nat) (hsv : sv < 32768) : ((arcSizes su sv).state sv 0).rise = 0 ∧ ((arcSizes su sv).state sv 0).fall = sv :=
  ⟨rfl, toInt16_eq (by omega) (by omega)⟩

/-- Without a size along the coordinate that goes up, the guard fails behind the first pass. -/
theorem narrow_guard (hv : 0 < sv) : ¬(arcSizes 0 sv).Guard ((arcSizes 0 sv).state sv 1) := by
  have hB := square_pos hv
  have hone : ((arcSizes 0 sv).state sv 1).rise = 1 := by
    rw [state_succ, step_rise]
    rfl
  rw [ArcSizes.Guard, hone, arcSizes]
  simp only
  omega

theorem level_guard (hu : 0 < su) (hfits : (arcSizes su 0).ProductsFit 0) :
    ¬(arcSizes su 0).Guard ((arcSizes su 0).state 0 1) := by
  have hA := square_pos hu
  have hstart := hfits.start
  have hdelta : 0 ≤ ((arcSizes su 0).state 0 0).delta := by
    show 0 ≤ toInt32 (2 * (((0 : Nat) : Int) * (0 : Nat)) + ((su : Int) * su) * (1 - 2 * (0 : Nat)))
    rw [arcSizes] at hstart
    simp only [Int.natCast_zero, Int.mul_zero, Int.sub_zero, Int.mul_one, Int.zero_add] at hstart ⊢
    rw [toInt32_eq hstart]
    exact Int.le_of_lt hA
  have hfall : ((arcSizes su 0).state 0 1).fall = -1 := by
    rw [state_succ, step_of_nonneg hdelta]
    rfl
  rw [ArcSizes.Guard, hfall, arcSizes]
  simp only [Int.natCast_zero, Int.mul_zero, Int.zero_mul]
  omega

theorem drawn_head (hne : ¬(su = 0 ∧ sv = 0)) (hfits : (arcSizes su sv).ProductsFit sv)
    (hguard : ∀ j ≤ n, (arcSizes su sv).Guard ((arcSizes su sv).state sv j)) :
    ((arcSizes su sv).state sv n).rise = n ∧ n ≤ su ∧ ∃ v ≤ sv, ((arcSizes su sv).state sv n).fall = (v : Int) := by
  have hsv : sv < 32768 := size_lt hfits.two
  have hfirst : n = 0 → ((arcSizes su sv).state sv n).rise = n ∧ n ≤ su ∧
      ∃ v ≤ sv, ((arcSizes su sv).state sv n).fall = (v : Int) := by
    rintro rfl
    obtain ⟨hrise, hfall⟩ := state_zero su hsv
    exact ⟨hrise, Nat.zero_le su, sv, Nat.le_refl sv, hfall⟩
  rcases Nat.eq_zero_or_pos su with rfl | hu
  · apply hfirst
    by_contra hn
    exact narrow_guard (Nat.pos_of_ne_zero fun hv => hne ⟨rfl, hv⟩) (hguard 1 (Nat.pos_of_ne_zero hn))
  · rcases Nat.eq_zero_or_pos sv with rfl | hv
    · apply hfirst
      by_contra hn
      exact level_guard hu hfits (hguard 1 (Nat.pos_of_ne_zero hn))
    · have hhead := head_state hu hv hfits n fun j hj => hguard j (Nat.le_of_lt hj)
      have hg := hguard n (Nat.le_refl n)
      obtain ⟨v, hvfall⟩ := Int.eq_ofNat_of_zero_le (fall_nonneg (square_pos hu) (square_pos hv) hhead.rise hg)
      have hle := hhead.fall_le
      exact ⟨hhead.rise, Nat.le_of_lt (rise_lt hu hv (hhead.inside hg)), v, by omega, hvfall⟩

theorem guard_ends (hne : ¬(su = 0 ∧ sv = 0)) (hfits : (arcSizes su sv).ProductsFit sv) :
    ∃ n, ¬(arcSizes su sv).Guard ((arcSizes su sv).state sv n) := by
  by_contra hall
  have hguard : ∀ j, (arcSizes su sv).Guard ((arcSizes su sv).state sv j) := fun j => by
    by_contra hj
    exact hall ⟨j, hj⟩
  have hle := (drawn_head (n := su + 1) hne hfits fun j _ => hguard j).2.1
  omega

theorem guard_first (hsv : sv < 32768) : (arcSizes su sv).Guard ((arcSizes su sv).state sv 0) := by
  obtain ⟨hrise, hfall⟩ := state_zero su hsv
  rw [ArcSizes.Guard, hrise, hfall, Int.mul_zero]
  exact Int.mul_nonneg (Int.mul_nonneg (Int.natCast_nonneg su) (Int.natCast_nonneg su)) (Int.natCast_nonneg sv)

theorem guard_of_zero (s : ArcState) : (arcSizes 0 0).Guard s := by
  rw [ArcSizes.Guard, arcSizes]
  simp

end Sizes

end Painter
end VialQmk
