import Mathlib.Algebra.Group.Nat.Defs
import Mathlib.Data.List.Count
import Mathlib.Data.List.Nodup
import Mathlib.Data.List.Range
import Mathlib.Data.Nat.Find
import Mathlib.Tactic.Common

/-!
# RgbMatrix.Frame

One frame of the RGB matrix (`rgb_matrix.c`), rendered a few LEDs at a time while the LEDs are not all done.

* `renderFrame_some_iff`: a frame is the ranges up to the first that ends behind the last LED.
* `covers_of_fits` and `covers_late`: where the sweep covers the half.
* `covered_twice`: a sweep that goes beyond 255 comes to a LED again.
-/

namespace VialQmk
namespace RgbMatrix

/-- The configuration: `RGB_MATRIX_LED_COUNT`, `RGB_MATRIX_LED_PROCESS_LIMIT`, and with `RGB_MATRIX_SPLIT` the
number of LEDs of the left half, `k_rgb_matrix_split[0]`. -/
structure RgbLayout where
  ledCount : Nat
  ledCount_le : ledCount ≤ 255
  processLimit : Nat
  split : Option Nat
  split_le : ∀ s ∈ split, s ≤ ledCount
  isKeyboardLeft : Bool

structure RgbLimits where
  ledMinIndex : Nat
  ledMaxIndex : Nat
deriving DecidableEq, Repr

def RgbLimits.Has (limits : RgbLimits) (led : Nat) : Prop := limits.ledMinIndex ≤ led ∧ led < limits.ledMaxIndex
deriving Decidable

namespace RgbLayout

variable (c : RgbLayout)

def clipSplit (limits : RgbLimits) : RgbLimits :=
  match c.split with
  | none => limits
  | some s =>
    if c.isKeyboardLeft then { limits with ledMaxIndex := if limits.ledMaxIndex > s then s else limits.ledMaxIndex }
    else { limits with ledMinIndex := if limits.ledMinIndex < s then s else limits.ledMinIndex }

def Limited : Prop := 0 < c.processLimit ∧ c.processLimit < c.ledCount
deriving Decidable

def getLimits (iter : Nat) : RgbLimits :=
  if c.Limited then
    let ledMinIndex := c.processLimit * iter % 256
    let ledMaxIndex := (ledMinIndex + c.processLimit) % 256
    c.clipSplit ⟨ledMinIndex, if ledMaxIndex > c.ledCount then c.ledCount else ledMaxIndex⟩
  else c.clipSplit ⟨0, c.ledCount⟩

/-- Where the LEDs that `rgb_matrix_check_finished_leds` asks for end. -/
def bound : Nat :=
  match c.split with
  | none => c.ledCount
  | some s => if c.isKeyboardLeft then s else c.ledCount

def checkFinishedLeds (ledIdx : Nat) : Bool := decide (ledIdx < c.bound)

/-- The calls of `rgb_task_render` for one frame; `iter` has 8 bits. -/
def renderFrame : Nat → Nat → Option (List RgbLimits)
  | 0, _ => none
  | fuel + 1, iter =>
    let limits := c.getLimits iter
    if c.checkFinishedLeds limits.ledMaxIndex then
      (renderFrame fuel ((iter + 1) % 256)).map (limits :: ·)
    else some [limits]

def first : Nat :=
  match c.split with
  | none => 0
  | some s => if c.isKeyboardLeft then 0 else s

theorem bound_le : c.bound ≤ c.ledCount := by
  rw [bound]
  split
  · exact Nat.le_refl _
  · rename_i s hs
    split
    · exact c.split_le s hs
    · exact Nat.le_refl _

theorem first_le : c.first ≤ c.ledCount := by
  rw [first]
  split
  · exact Nat.zero_le _
  · rename_i s hs
    split
    · exact Nat.zero_le _
    · exact c.split_le s hs

/-- The frame ends, and its ranges hold each LED of the half once and no other LED. -/
def Covers : Prop :=
  ∃ fuel ranges, c.renderFrame fuel 0 = some ranges ∧
    ∀ led, ranges.countP (fun limits => limits.Has led) = if c.first ≤ led ∧ led < c.bound then 1 else 0

def sweep : Nat := (c.bound + c.processLimit - 1) / c.processLimit

def start (k : Nat) : Nat := c.processLimit * k % 256

variable {c}

theorem clip_eq_min (a n : Nat) : (if a > n then n else a) = min a n := by
  split <;> omega

theorem raise_eq_max (a n : Nat) : (if a < n then n else a) = max n a := by
  split <;> omega

theorem getLimits_limited (h : c.Limited) (k : Nat) :
    c.getLimits k = ⟨max c.first (c.start k), min ((c.start k + c.processLimit) % 256) c.bound⟩ := by
  have hsplit := c.split_le
  have hstart : c.processLimit * k % 256 = c.start k := rfl
  rw [getLimits, if_pos h]
  simp only [clipSplit, first, bound, hstart, clip_eq_min, raise_eq_max]
  cases hs : c.split with
  | none => simp only [Nat.zero_max]
  | some s =>
    cases hleft : c.isKeyboardLeft with
    | true => simp only [if_true, Nat.zero_max, Nat.min_assoc, Nat.min_eq_right (hsplit s hs)]
    | false => simp only [Bool.false_eq_true, if_false]

theorem getLimits_all (h : ¬c.Limited) (k : Nat) : c.getLimits k = ⟨c.first, c.bound⟩ := by
  have hsplit := c.split_le
  rw [getLimits, if_neg h]
  simp only [clipSplit, first, bound, clip_eq_min, raise_eq_max]
  cases hs : c.split with
  | none => simp only
  | some s =>
    cases hleft : c.isKeyboardLeft with
    | true => simp only [if_true, Nat.min_eq_right (hsplit s hs)]
    | false => simp only [Bool.false_eq_true, if_false, Nat.max_zero]

theorem getLimits_congr {k k' : Nat} (h : k % 256 = k' % 256) : c.getLimits k = c.getLimits k' := by
  have hstart : c.processLimit * k % 256 = c.processLimit * k' % 256 := by
    rw [← Nat.mul_mod_mod, h, Nat.mul_mod_mod]
  simp only [getLimits, hstart]

theorem renderFrame_some_iff {fuel iter : Nat} {ranges : List RgbLimits} :
    c.renderFrame fuel iter = some ranges ↔
      ∃ last < fuel, (∀ j < last, (c.getLimits (iter + j)).ledMaxIndex < c.bound) ∧
        c.bound ≤ (c.getLimits (iter + last)).ledMaxIndex ∧
        ranges = (List.range (last + 1)).map fun j => c.getLimits (iter + j) := by
  induction fuel generalizing iter ranges with
  | zero => simp [renderFrame]
  | succ fuel ih =>
    have hnext : ∀ j, c.getLimits ((iter + 1) % 256 + j) = c.getLimits (iter + (j + 1)) := by
      intro j
      apply getLimits_congr
      omega
    have hcons : ∀ last, (List.range (last + 2)).map (fun j => c.getLimits (iter + j)) =
        c.getLimits iter :: (List.range (last + 1)).map fun j => c.getLimits (iter + (j + 1)) := by
      intro last
      rw [List.range_succ_eq_map, List.map_cons, List.map_map]
      rfl
    rw [renderFrame]
    simp only [checkFinishedLeds, decide_eq_true_eq]
    split
    · rename_i hgo
      simp only [Option.map_eq_some_iff, ih, hnext]
      constructor
      · rintro ⟨rest, ⟨last, hlast, hbefore, hend, rfl⟩, rfl⟩
        refine ⟨last + 1, Nat.succ_lt_succ hlast, ?_, hend, ?_⟩
        · intro j hj
          cases j with
          | zero => exact hgo
          | succ j => exact hbefore j (Nat.lt_of_succ_lt_succ hj)
        · rw [hcons]
      · rintro ⟨last, hlast, hbefore, hend, rfl⟩
        cases last with
        | zero => exact absurd hgo (Nat.not_lt.mpr hend)
        | succ last =>
          refine ⟨_, ⟨last, Nat.lt_of_succ_lt_succ hlast, fun j hj => hbefore (j + 1) (Nat.succ_lt_succ hj), hend,
            rfl⟩, ?_⟩
          rw [hcons]
    · rename_i hstop
      constructor
      · intro h
        obtain rfl := Option.some.inj h
        exact ⟨0, Nat.succ_pos fuel, fun j hj => absurd hj (Nat.not_lt_zero j), Nat.not_lt.mp hstop, rfl⟩
      · rintro ⟨last, -, hbefore, -, rfl⟩
        cases last with
        | zero => rfl
        | succ last => exact absurd (hbefore 0 (Nat.succ_pos last)) hstop

theorem countP_range_eq_one {n i : Nat} {p : Nat → Bool} (hi : i < n) (hp : ∀ j < n, p j = true ↔ j = i) :
    (List.range n).countP p = 1 := by
  have hcount : (List.range n).countP p = (List.range n).countP fun j => j == i := by
    apply List.countP_congr
    intro j hj
    rw [hp j (List.mem_range.mp hj), beq_iff_eq]
  rw [hcount]
  exact List.count_eq_one_of_mem List.nodup_range (List.mem_range.mpr hi)

theorem two_le_countP_range {n i j : Nat} {p : Nat → Bool} (hij : i < j) (hj : j < n) (hi : p i = true)
    (hpj : p j = true) : 2 ≤ (List.range n).countP p := by
  induction n with
  | zero => exact absurd hj (Nat.not_lt_zero j)
  | succ n ih =>
    rw [List.range_succ, List.countP_append]
    rcases Nat.lt_or_ge j n with h | h
    · exact Nat.le_trans (ih h) (Nat.le_add_right _ _)
    · obtain rfl : j = n := Nat.le_antisymm (Nat.lt_succ_iff.mp hj) h
      have hone : 0 < (List.range j).countP p := List.countP_pos_iff.mpr ⟨i, List.mem_range.mpr hij, hi⟩
      have hlast : [j].countP p = 1 := by simp [hpj]
      omega

def visits (c : RgbLayout) (last led : Nat) : Nat :=
  (List.range (last + 1)).countP fun j => decide ((c.getLimits j).Has led)

/-- This is the first call that ends behind the last LED. -/
structure IsLast (c : RgbLayout) (last : Nat) : Prop where
  before : ∀ j < last, (c.getLimits j).ledMaxIndex < c.bound
  end_le : c.bound ≤ (c.getLimits last).ledMaxIndex

theorem covers_iff :
    c.Covers ↔ ∃ last, IsLast c last ∧
      ∀ led, visits c last led = if c.first ≤ led ∧ led < c.bound then 1 else 0 := by
  have hvisits : ∀ last led, ((List.range (last + 1)).map fun j => c.getLimits (0 + j)).countP
      (fun limits => decide (limits.Has led)) = visits c last led := by
    intro last led
    simp only [Nat.zero_add, List.countP_map]
    rfl
  constructor
  · rintro ⟨fuel, ranges, h, hled⟩
    obtain ⟨last, -, hbefore, hend, rfl⟩ := renderFrame_some_iff.mp h
    refine ⟨last, ⟨fun j hj => ?_, ?_⟩, fun led => ?_⟩
    · simpa only [Nat.zero_add] using hbefore j hj
    · simpa only [Nat.zero_add] using hend
    · rw [← hvisits, hled]
  · rintro ⟨last, hlast, hled⟩
    refine ⟨last + 1, _, renderFrame_some_iff.mpr ⟨last, Nat.lt_succ_self last, ?_, ?_, rfl⟩, fun led => ?_⟩
    · simpa only [Nat.zero_add] using hlast.before
    · simpa only [Nat.zero_add] using hlast.end_le
    · rw [hvisits, hled]

theorem has_half {j led : Nat} (h : (c.getLimits j).Has led) : c.first ≤ led ∧ led < c.bound := by
  by_cases hc : c.Limited
  · rw [getLimits_limited hc] at h
    exact ⟨Nat.le_trans (Nat.le_max_left _ _) h.1, Nat.lt_of_lt_of_le h.2 (Nat.min_le_right _ _)⟩
  · rw [getLimits_all hc] at h
    exact h

theorem visits_outside {last led : Nat} (h : ¬(c.first ≤ led ∧ led < c.bound)) : visits c last led = 0 := by
  rw [visits, List.countP_eq_zero]
  intro j _
  simp only [decide_eq_true_eq]
  exact fun hhas => h (has_half hhas)

theorem covers_of_one (last : Nat) (hlast : IsLast c last)
    (h : ∀ led, c.first ≤ led → led < c.bound →
      ∃ i ≤ last, ∀ j ≤ last, (c.getLimits j).Has led ↔ j = i) : c.Covers := by
  refine covers_iff.mpr ⟨last, hlast, fun led => ?_⟩
  split
  · rename_i hled
    obtain ⟨i, hi, hone⟩ := h led hled.1 hled.2
    apply countP_range_eq_one (Nat.lt_succ_of_le hi)
    intro j hj
    rw [decide_eq_true_eq, hone j (Nat.le_of_lt_succ hj)]
  · rename_i hled
    exact visits_outside hled

theorem not_twice {last i j : Nat} (led : Nat) (hled : ∀ led, visits c last led =
    if c.first ≤ led ∧ led < c.bound then 1 else 0) (hij : i < j) (hj : j ≤ last)
    (hi : (c.getLimits i).Has led) (hjled : (c.getLimits j).Has led) : False := by
  have htwo : 2 ≤ visits c last led :=
    two_le_countP_range hij (Nat.lt_succ_of_le hj) (decide_eq_true hi) (decide_eq_true hjled)
  rw [hled, if_pos (has_half hi)] at htwo
  exact absurd htwo (by decide)

/-- The calls come to the last LED before a start or an end needs more than 8 bits. -/
def SweepFits (c : RgbLayout) : Prop := c.processLimit * c.sweep ≤ 255

/-- The half lies behind all calls but the last of the sweep, and of the calls that go on from there the first that
comes into the half takes all of it. -/
def LateFits (c : RgbLayout) : Prop :=
  c.processLimit * (c.sweep - 1) ≤ c.first ∧
    ∃ k, c.bound ≤ c.start k + c.processLimit ∧ c.start k + c.processLimit ≤ 255 ∧
      ∀ j < k, ¬(c.first < c.start j + c.processLimit ∧ c.start j + c.processLimit < c.bound)

theorem bound_le_sweep (h : c.Limited) : c.bound ≤ c.processLimit * c.sweep := by
  have hdiv := Nat.lt_mul_div_succ (c.bound + c.processLimit - 1) h.1
  rw [Nat.mul_succ] at hdiv
  have hpos := h.1
  rw [sweep]
  omega

theorem sweep_lt (h : c.Limited) : c.processLimit * c.sweep < c.bound + c.processLimit := by
  have hdiv := Nat.mul_div_le (c.bound + c.processLimit - 1) c.processLimit
  have hpos := h.1
  rw [sweep]
  omega

theorem mul_sweep_pred (c : RgbLayout) :
    c.processLimit * (c.sweep - 1) = c.processLimit * c.sweep - c.processLimit := by
  rw [Nat.mul_sub, Nat.mul_one]

theorem getLimits_sweep (h : c.Limited) {j : Nat} (hj : c.processLimit * (j + 1) ≤ 255) :
    c.getLimits j =
      ⟨max c.first (c.processLimit * j), min (c.processLimit * j + c.processLimit) c.bound⟩ := by
  rw [Nat.mul_succ] at hj
  have hstart : c.start j = c.processLimit * j := Nat.mod_eq_of_lt (by omega)
  rw [getLimits_limited h, hstart, Nat.mod_eq_of_lt (by omega)]

theorem covers_of_fits (h : c.Limited) (hfits : SweepFits c) : c.Covers := by
  have hbound := bound_le_sweep h
  have hlt := sweep_lt h
  have hpred := mul_sweep_pred c
  have hcall : ∀ j < c.sweep, c.processLimit * (j + 1) ≤ 255 := fun j hj =>
    Nat.le_trans (Nat.mul_le_mul_left _ hj) hfits
  rcases Nat.eq_zero_or_pos c.sweep with hz | hpos
  · -- the half has no LED, and the first call finds that out
    have hzero : c.bound = 0 := by rw [hz] at hbound; exact Nat.le_zero.mp hbound
    refine covers_of_one 0 ⟨fun j hj => absurd hj (Nat.not_lt_zero j), ?_⟩ ?_
    · rw [hzero]
      exact Nat.zero_le _
    · intro led _ hled
      exact absurd hled (by omega)
  · refine covers_of_one (c.sweep - 1) ⟨fun j hj => ?_, ?_⟩ ?_
    · have hj1 : c.processLimit * (j + 1) ≤ c.processLimit * (c.sweep - 1) := Nat.mul_le_mul_left _ hj
      rw [getLimits_sweep h (hcall j (by omega))]
      show min (c.processLimit * j + c.processLimit) c.bound < c.bound
      rw [Nat.mul_succ] at hj1
      omega
    · rw [getLimits_sweep h (hcall _ (by omega))]
      show c.bound ≤ min (c.processLimit * (c.sweep - 1) + c.processLimit) c.bound
      omega
    · intro led hfirst hled
      have hdiv : led / c.processLimit < c.sweep := Nat.div_lt_of_lt_mul (by omega)
      refine ⟨led / c.processLimit, by omega, fun j hj => ?_⟩
      rw [getLimits_sweep h (hcall j (by omega)), RgbLimits.Has, eq_comm, Nat.div_eq_iff h.1,
        Nat.mul_comm j]
      have hpos := h.1
      simp only
      omega

theorem covers_of_all (h : ¬c.Limited) : c.Covers := by
  refine covers_of_one 0 ⟨fun j hj => absurd hj (Nat.not_lt_zero j), ?_⟩ fun led hfirst hled => ?_
  · rw [getLimits_all h]
  · refine ⟨0, Nat.le_refl 0, fun j hj => ?_⟩
    rw [getLimits_all h, Nat.le_zero.mp hj]
    exact iff_of_true ⟨hfirst, hled⟩ rfl

/-- The last call of the sweep begins inside the half's LEDs, and there are calls before it. -/
theorem sweep_beyond (h : c.Limited) (hfits : ¬SweepFits c) :
    c.processLimit ≤ c.processLimit * (c.sweep - 1) ∧ c.processLimit * (c.sweep - 1) < c.bound := by
  have hle := Nat.le_trans c.bound_le c.ledCount_le
  have hlt := sweep_lt h
  have hpred := mul_sweep_pred c
  have hcount := c.ledCount_le
  have hlimit := h.2
  have hbeyond : 255 < c.processLimit * c.sweep := Nat.not_le.mp hfits
  have htwo : 2 ≤ c.sweep := by
    by_contra hc
    have hone : c.processLimit * c.sweep ≤ c.processLimit * 1 := Nat.mul_le_mul_left _ (by omega)
    omega
  constructor
  · exact Nat.le_mul_of_pos_right _ (by omega)
  · omega

theorem start_lt (c : RgbLayout) (k : Nat) : c.start k < 256 := Nat.mod_lt _ (by decide)

theorem wrapped_end (h : c.Limited) {k : Nat} (hk : 256 ≤ c.start k + c.processLimit) :
    (c.start k + c.processLimit) % 256 < c.processLimit ∧ (c.start k + c.processLimit) % 256 < c.start k := by
  have hstart := start_lt c k
  have hcount := c.ledCount_le
  have hlimit := h.2
  omega

theorem covers_late (h : c.Limited) (hfits : ¬SweepFits c) (hlate : LateFits c) : c.Covers := by
  obtain ⟨hle, hlt⟩ := sweep_beyond h hfits
  have hpred := mul_sweep_pred c
  have hbeyond : 255 < c.processLimit * c.sweep := Nat.not_le.mp hfits
  obtain ⟨hfirst, hex⟩ := hlate
  have hend : ∃ k, c.bound ≤ c.start k + c.processLimit ∧ c.start k + c.processLimit ≤ 255 :=
    hex.imp fun k hk => ⟨hk.1, hk.2.1⟩
  obtain ⟨k, hk, hk255, hnone⟩ := hex
  obtain ⟨hlastEnd, hlast255⟩ := Nat.find_spec hend
  have hlastle : Nat.find hend ≤ k := Nat.find_le ⟨hk, hk255⟩
  -- a call before the last one goes beyond 8 bits, or ends in front of the half
  have hbefore : ∀ j < Nat.find hend, 256 ≤ c.start j + c.processLimit ∨ c.start j + c.processLimit ≤ c.first := by
    intro j hj
    have hnot := Nat.find_min hend hj
    have hout := hnone j (Nat.lt_of_lt_of_le hj hlastle)
    omega
  refine covers_of_one (Nat.find hend) ⟨fun j hj => ?_, ?_⟩ fun led hled hlastled => ?_
  · rw [getLimits_limited h]
    show min ((c.start j + c.processLimit) % 256) c.bound < c.bound
    rcases hbefore j hj with hwrap | hout
    · have := wrapped_end h hwrap
      omega
    · have hhit := Nat.find_min hend hj
      have hfirst255 := Nat.le_trans c.first_le c.ledCount_le
      omega
  · rw [getLimits_limited h]
    show c.bound ≤ min ((c.start (Nat.find hend) + c.processLimit) % 256) c.bound
    omega
  · refine ⟨_, Nat.le_refl _, fun j hj => ⟨fun hhas => ?_, ?_⟩⟩
    · by_contra hne
      rw [getLimits_limited h, RgbLimits.Has] at hhas
      simp only at hhas
      rcases hbefore j (Nat.lt_of_le_of_ne hj hne) with hwrap | hout
      · have := wrapped_end h hwrap
        omega
      · omega
    · rintro rfl
      rw [getLimits_limited h, RgbLimits.Has]
      simp only
      omega

theorem sweep_le_last (h : c.Limited) (hfits : ¬SweepFits c) {last : Nat} (hlast : IsLast c last) :
    c.sweep ≤ last := by
  by_contra hlt
  obtain ⟨hle, hin⟩ := sweep_beyond h hfits
  have hend := hlast.end_le
  have hcount := c.ledCount_le
  have hbound := c.bound_le
  have hlimit := h.2
  rcases Nat.lt_or_ge (last + 1) c.sweep with hbefore | hat
  · have hcall : c.processLimit * (last + 1) ≤ c.processLimit * (c.sweep - 1) :=
      Nat.mul_le_mul_left _ (by omega)
    rw [getLimits_sweep h (by omega)] at hend
    rw [Nat.mul_succ] at hcall
    simp only at hend
    omega
  · obtain rfl : last = c.sweep - 1 := by omega
    have hstart : c.start (c.sweep - 1) = c.processLimit * (c.sweep - 1) := Nat.mod_eq_of_lt (by omega)
    have hpred := mul_sweep_pred c
    have hbeyond : 255 < c.processLimit * c.sweep := Nat.not_le.mp hfits
    have hwrap := wrapped_end h (k := c.sweep - 1) (by omega)
    rw [getLimits_limited h] at hend
    simp only at hend
    omega

theorem late_of_covers (h : c.Limited) (hfits : ¬SweepFits c) (hcovers : c.Covers) : LateFits c := by
  obtain ⟨last, hlast, hled⟩ := covers_iff.mp hcovers
  obtain ⟨hle, hin⟩ := sweep_beyond h hfits
  have hpred := mul_sweep_pred c
  have hbeyond : 255 < c.processLimit * c.sweep := Nat.not_le.mp hfits
  have hsweep := sweep_le_last h hfits hlast
  have hbound := Nat.le_trans c.bound_le c.ledCount_le
  have hend := hlast.end_le
  rw [getLimits_limited h] at hend
  simp only at hend
  have h255 : c.start last + c.processLimit ≤ 255 := by
    by_contra hc
    have := wrapped_end h (k := last) (by omega)
    omega
  have hhas : ∀ led, c.start last ≤ led → c.first ≤ led → led < c.bound → (c.getLimits last).Has led := by
    intro led hstart hfirst hlt
    rw [getLimits_limited h, RgbLimits.Has]
    simp only
    omega
  have hlate : c.processLimit * (c.sweep - 1) ≤ c.first := by
    -- otherwise the last call holds a LED that the sweep has held
    by_contra hfirst
    have hdiv : max c.first (c.start last) / c.processLimit < c.sweep - 1 := Nat.div_lt_of_lt_mul (by omega)
    have hcall : c.processLimit * (max c.first (c.start last) / c.processLimit + 1) ≤
        c.processLimit * (c.sweep - 1) := Nat.mul_le_mul_left _ hdiv
    have hmod := Nat.mul_div_le (max c.first (c.start last)) c.processLimit
    have hdivlt := Nat.lt_mul_div_succ (max c.first (c.start last)) h.1
    refine not_twice (i := max c.first (c.start last) / c.processLimit) (j := last) (max c.first (c.start last)) hled (by omega) (Nat.le_refl _) ?_ (hhas _ (by omega) (by omega) (by omega))
    rw [getLimits_sweep h (by omega), RgbLimits.Has]
    rw [Nat.mul_succ] at hcall hdivlt
    simp only
    omega
  refine ⟨hlate, last, by omega, h255, ?_⟩
  intro j hj hout
  refine not_twice c.first hled hj (Nat.le_refl _) ?_ (hhas _ (by omega) (by omega) (by omega))
  rw [getLimits_limited h, RgbLimits.Has]
  simp only
  omega

/-- A frame ends with each LED of the half rendered once just where all LEDs are in one call, the sweep stays in
8 bits, or the half lies late in the sweep. -/
theorem frame_covers_iff (c : RgbLayout) : c.Covers ↔ ¬c.Limited ∨ SweepFits c ∨ LateFits c := by
  constructor
  · intro hcovers
    by_cases h : c.Limited
    · by_cases hfits : SweepFits c
      · exact .inr (.inl hfits)
      · exact .inr (.inr (late_of_covers h hfits hcovers))
    · exact .inl h
  · rintro (h | hfits | hlate)
    · exact covers_of_all h
    · by_cases h : c.Limited
      · exact covers_of_fits h hfits
      · exact covers_of_all h
    · by_cases h : c.Limited
      · by_cases hfits : SweepFits c
        · exact covers_of_fits h hfits
        · exact covers_late h hfits hlate
      · exact covers_of_all h

def hundredAtATime : RgbLayout := ⟨255, Nat.le_refl 255, 100, none, fun s hs => absurd hs (Option.not_mem_none s), true⟩

theorem frame_not_covered : ¬∀ c : RgbLayout, c.Covers := by
  intro hall
  have hlate := late_of_covers (c := hundredAtATime) (by decide) (by rw [SweepFits]; decide) (hall hundredAtATime)
  exact absurd hlate.1 (by decide)

end RgbLayout
end RgbMatrix
end VialQmk
