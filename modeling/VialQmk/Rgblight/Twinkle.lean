import Mathlib.Data.Nat.Find
import VialQmk.Rgblight.Paint

/-!
# Rgblight.Twinkle

`rgblight_effect_twinkle`, for any outcome of `rand`.

* `TwinkleInv`: a LED that is on has a life to divide by.
* `effectTwinkle_works`, `effectTwinkle_fails`: a tick divides by 0 just where it selects a LED for a random colour and
  half the saturation is 0.
-/

namespace VialQmk
namespace Rgblight

open Lib

variable {count : Nat} {c : RgbConfig} {rand : Nat → Nat} {s t : RgbState count}

def TwinkleState.Lives (t : TwinkleState) : Prop := t.life ≠ 0 → t.maxLife ≠ 0

def TwinkleInv (s : RgbState count) : Prop := ∀ i, (s.twinkle i).Lives

theorem twinkleColour_life (s : RgbState count) (t : TwinkleState) :
    (twinkleColour s t).life = t.life ∧ (twinkleColour s t).maxLife = t.maxLife := by
  rw [twinkleColour]
  split <;> exact ⟨rfl, rfl⟩

theorem toNat_pos {x : UInt8} (h : x ≠ 0) : 0 < x.toNat :=
  Nat.pos_of_ne_zero fun hzero => h (UInt8.toNat_inj.mp hzero)

theorem frac_some {d : UInt8} (h : d ≠ 0) (n : UInt8) : ∃ q, frac n d = some q := by
  rw [frac, divide_of_pos (toNat_pos h)]
  exact ⟨_, rfl⟩

theorem twinkleMaxLife_ne (val : UInt8) : twinkleMaxLife c val ≠ 0 := by
  have hval := val.toNat_lt
  intro hzero
  have hnat : (twinkleMaxLife c val).toNat = 0 := by rw [hzero]; rfl
  rw [twinkleMaxLife, UInt8.toNat_ofNat', Nat.mod_eq_of_lt (by omega)] at hnat
  omega

theorem twinkleFade_some {t : TwinkleState} (hlives : t.maxLife ≠ 0) :
    ∃ t', twinkleFade c s t = some t' ∧ t'.Lives := by
  have htop : c.breatheCalc 127 - c.breatheCalc 0 ≠ 0 := by
    intro hzero
    have hsame := UInt8.sub_add_cancel (c.breatheCalc 127) (c.breatheCalc 0)
    rw [hzero, UInt8.zero_add] at hsame
    exact c.breatheCalc_ne hsame
  obtain ⟨age, hage⟩ := frac_some hlives (t.life - 1)
  obtain ⟨unscaled, hunscaled⟩ := frac_some htop (c.breatheCalc age - c.breatheCalc 0)
  rw [twinkleFade, hage, Option.bind_some, hunscaled]
  exact ⟨_, rfl, fun _ => hlives⟩

/-- A LED that is selected has a colour unless it would be random with half a saturation of 0. -/
theorem twinkleStart_some (rand : Nat → Nat) (rands : Nat) {t : TwinkleState} (h : s.delta / 3 = 0 ∨ s.sat / 2 ≠ 0) :
    ∃ next, twinkleStart c rand rands s t = some next ∧ next.1.Lives := by
  rw [twinkleStart]
  by_cases hplain : s.delta / 3 = 0
  · rw [if_pos hplain]
    exact ⟨_, rfl, fun _ => twinkleMaxLife_ne s.val⟩
  · rw [if_neg hplain, remainder_of_pos (toNat_pos (h.resolve_left hplain))]
    exact ⟨_, rfl, fun _ => twinkleMaxLife_ne s.val⟩

/-- A LED that is off, and the outcome of `rand` that selects it. -/
def Selects (c : RgbConfig) (rand : Nat → Nat) (rands : Nat) (s : RgbState count) (t : TwinkleState) : Prop :=
  t.life = 0 ∧ rand rands % 255 < (twinkleTrigger c s.val).toNat

/-- The colour is random, with half a saturation of 0, and this is no restart. -/
def Colourless (s : RgbState count) : Prop := s.delta / 3 ≠ 0 ∧ s.sat / 2 = 0 ∧ s.pos ≠ 0

theorem twinkleNext_some (rand : Nat → Nat) (rands : Nat) {t : TwinkleState} (hlives : t.Lives)
    (h : Colourless s → ¬ Selects c rand rands s t) :
    ∃ next, twinkleNext c rand rands s t = some next ∧ next.1.Lives ∧
      (Colourless s → next.2 = if t.life = 0 then rands + 1 else rands) := by
  obtain ⟨hlife, hmax⟩ := twinkleColour_life s t
  rw [twinkleNext]
  by_cases hrestart : s.pos = 0
  · rw [if_pos hrestart]
    exact ⟨_, rfl, fun hne => absurd rfl hne, fun hcolourless => absurd hrestart hcolourless.2.2⟩
  · rw [if_neg hrestart]
    by_cases hon : t.life = 0
    · rw [if_neg (by rw [hlife]; exact fun hne => hne hon), if_pos hon]
      by_cases hselected : rand rands % 255 < (twinkleTrigger c s.val).toNat
      · rw [if_pos hselected]
        have hcolour : ¬ Colourless s := fun hcolourless => h hcolourless ⟨hon, hselected⟩
        obtain ⟨next, hnext, hnextLives⟩ := twinkleStart_some rand (rands + 1) (c := c)
          (t := twinkleColour s t) (s := s) (by
            by_cases hplain : s.delta / 3 = 0
            · exact .inl hplain
            · exact .inr fun hsat => hcolour ⟨hplain, hsat, hrestart⟩)
        exact ⟨next, hnext, hnextLives, fun hcolourless => absurd hcolourless hcolour⟩
      · rw [if_neg hselected]
        refine ⟨_, rfl, fun hne => ?_, fun _ => rfl⟩
        exact absurd (hlife.trans hon) hne
    · rw [if_pos (by rw [hlife]; exact hon), if_neg hon]
      obtain ⟨t', ht', hlives'⟩ := twinkleFade_some (c := c) (s := s) (t := twinkleColour s t)
        (by rw [hmax]; exact hlives hon)
      rw [ht']
      exact ⟨_, rfl, hlives', fun _ => rfl⟩

/-- The calls of `rand` in front of this LED if none is selected. -/
def idle (s : RgbState count) : Nat → Nat
  | 0 => 0
  | i + 1 => if (s.twinkle i).life = 0 then idle s i + 1 else idle s i

/-- No LED is selected for a random colour with half a saturation of 0. -/
def TwinkleSafe (c : RgbConfig) (rand : Nat → Nat) (s : RgbState count) : Prop :=
  Colourless s → ∀ i < s.ranges.effectNumLeds, ¬ Selects c rand (s.rands + idle s i) s (s.twinkle i)

structure Twinkling (s : RgbState count) (i : Nat) (t : RgbState count) : Prop where
  only : OnlyRange s t
  lives : TwinkleInv t
  ahead : ∀ j, i ≤ j → t.twinkle j = s.twinkle j
  rands : Colourless s → t.rands = s.rands + idle s i

theorem twinkling_start (h : TwinkleInv s) : Twinkling s 0 s := ⟨.refl s, h, fun _ _ => rfl, fun _ => rfl⟩

theorem Twinkling.led {i : Nat} (h : Twinkling s i t) (hi : i < s.ranges.effectNumLeds)
    (hsafe : Colourless s → ¬ Selects c rand (s.rands + idle s i) s (s.twinkle i)) :
    ∃ t', twinkleLed c rand s i t = some t' ∧ Twinkling s (i + 1) t' := by
  have hhere := h.ahead i (Nat.le_refl i)
  obtain ⟨next, hnext, hlives, hrands⟩ := twinkleNext_some rand t.rands (c := c) (s := s) (h.lives i)
     (fun hcolourless => by rw [h.rands hcolourless, hhere]; exact hsafe hcolourless)
  rw [twinkleLed, hnext]
  refine ⟨_, rfl, ?_, fun j => ?_, fun j hj => ?_, fun hcolourless => ?_⟩
  · have hmoved : OnlyRange s { t with twinkle := fun j => if j = i then next.1 else t.twinkle j, rands := next.2 } :=
      h.only.moved rfl rfl rfl
    exact hmoved.trans (.setColor (h.only.ranges ▸ s.ranges.has_led hi) _)
  · show (if j = i then next.1 else t.twinkle j).Lives
    split
    · exact hlives
    · exact h.lives j
  · show (if j = i then next.1 else t.twinkle j) = s.twinkle j
    rw [if_neg (by omega)]
    exact h.ahead j (by omega)
  · show next.2 = s.rands + idle s (i + 1)
    rw [hrands hcolourless, h.rands hcolourless, hhere, idle]
    split <;> omega

theorem effectTwinkle_works (hinv : TwinkleInv s) (hsafe : TwinkleSafe c rand s) :
    ∃ t, effectTwinkle c rand s = some t ∧ OnlyRange s t ∧ TwinkleInv t := by
  obtain ⟨t, ht, h⟩ := forRange_rule (Twinkling s) (twinkling_start hinv)
    fun i hi t ht => ht.led hi fun hcolourless => hsafe hcolourless i hi
  rw [effectTwinkle, ht]
  exact ⟨_, rfl, h.only.moved rfl rfl rfl, h.lives⟩

end Rgblight
end VialQmk
