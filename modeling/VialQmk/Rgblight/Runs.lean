import VialQmk.Rgblight.Snake
import VialQmk.Rgblight.Twinkle

/-!
# Rgblight.Runs

Ticks of the RGB light, between which the range, the mode and the colour change.

* `timerTask_isSome_iff`: just which ticks divide by 0.
* `rgblight_effects_safe`: a run whose ticks are safe goes on to its end, sets LEDs of the range only and has the snake
  whole in each of its frames.
* `rgblight_snake_torn`: a snake that goes down does not come back at the first LED of the strip.
-/

namespace VialQmk
namespace Rgblight

open Lib

section

variable {c : RgbConfig} {rand : Nat → Nat} {s t : RgbState c.ledCount}

theorem restarted_ranges (s : RgbState c.ledCount) : (restarted s).ranges = s.ranges := by
  rw [restarted]
  split <;> rfl

theorem restarted_only (s : RgbState c.ledCount) : OnlyRange s (restarted s) := by
  rw [restarted]
  split
  · exact (OnlyRange.refl s).moved rfl rfl rfl
  · exact .refl s

theorem restarted_twinkle (s : RgbState c.ledCount) : (restarted s).twinkle = s.twinkle := by
  rw [restarted]
  split <;> rfl

theorem restarted_mode (s : RgbState c.ledCount) : (restarted s).mode = s.mode := by
  rw [restarted]
  split <;> rfl

def Divides (c : RgbConfig) (rand : Nat → Nat) (s : RgbState c.ledCount) : Prop :=
  match s.mode with
  | .snake => s.ranges.effectNumLeds = 0 → snakeStep s = 1
  | .knight => KnightSafe c s
  | .twinkle => TwinkleSafe c rand s
  | _ => True

def TickSafe (c : RgbConfig) (rand : Nat → Nat) (s : RgbState c.ledCount) : Prop :=
  match s.mode with
  | .snake => SnakeSafe c s
  | .knight => KnightSafe c s
  | .twinkle => TwinkleSafe c rand s
  | _ => True

structure FrameGood (c : RgbConfig) (s t : RgbState c.ledCount) : Prop where
  only : OnlyRange s t
  snake : s.mode = .snake → SnakeLights c s t

theorem Works.tick {result : Option (RgbState c.ledCount)} (h : Works s result) (hinv : TwinkleInv s) :
    ∃ t, result = some t ∧ OnlyRange s t ∧ TwinkleInv t := by
  obtain ⟨t, ht, hpaints⟩ := h
  refine ⟨t, ht, hpaints.toOnlyRange, fun i => ?_⟩
  rw [hpaints.twinkle]
  exact hinv i

theorem effectFunc_works (hinv : TwinkleInv s) (h : Divides c rand s) :
    ∃ t, effectFunc c rand s = some t ∧ OnlyRange s t ∧ TwinkleInv t := by
  rw [Divides] at h
  rw [effectFunc]
  cases hmode : s.mode with
  | breathing => exact (effectBreathing_works s).tick hinv
  | rainbowMood => exact (effectRainbowMood_works s).tick hinv
  | rainbowSwirl => exact (effectRainbowSwirl_works s).tick hinv
  | snake =>
    rw [hmode] at h
    obtain ⟨t, ht, hpaints, -⟩ := effectSnake_spec (c := c) h
    exact Works.tick ⟨t, ht, hpaints⟩ hinv
  | knight =>
    rw [hmode] at h
    exact (effectKnight_works h).tick hinv
  | christmas => exact (effectChristmas_works s).tick hinv
  | rgbTest => exact (effectRgbTest_works s).tick hinv
  | alternating => exact (effectAlternating_works s).tick hinv
  | twinkle =>
    rw [hmode] at h
    exact effectTwinkle_works hinv h

theorem TickSafe.divides (h : TickSafe c rand s) : Divides c rand s := by
  rw [TickSafe] at h
  rw [Divides]
  cases hmode : s.mode with
  | snake =>
    rw [hmode] at h
    intro hzero
    rwa [SnakeSafe, if_pos hzero] at h
  | knight => rwa [hmode] at h
  | twinkle => rwa [hmode] at h
  | breathing | rainbowMood | rainbowSwirl | christmas | rgbTest | alternating => trivial

theorem timerTask_good (hinv : TwinkleInv s) (h : TickSafe c rand (restarted s)) :
    ∃ t, timerTask c rand s = some t ∧ FrameGood c s t ∧ TwinkleInv t := by
  have hinv' : TwinkleInv (restarted s) := by
    rw [TwinkleInv, restarted_twinkle]
    exact hinv
  obtain ⟨t, ht, honly, htwinkle⟩ := effectFunc_works hinv' h.divides
  refine ⟨t, ht, ⟨(restarted_only s).trans honly, fun hmode => ?_⟩, htwinkle⟩
  have hmode' : (restarted s).mode = .snake := (restarted_mode s).trans hmode
  rw [TickSafe, hmode'] at h
  obtain ⟨t', ht', -, hlights⟩ := effectSnake_lights h
  rw [effectFunc, hmode', ht'] at ht
  cases ht
  rw [SnakeLights, restarted_ranges] at hlights
  exact hlights

/-- Every step is done, and every tick as it should be. -/
inductive GoodRun (c : RgbConfig) (rand : Nat → Nat) : RgbState c.ledCount → List RgbStep → Prop where
  | nil (s : RgbState c.ledCount) : GoodRun c rand s []
  | cons {s t : RgbState c.ledCount} {step : RgbStep} {steps : List RgbStep} : step.exec c rand s = some t →
      (step = .tick → FrameGood c s t) → GoodRun c rand t steps → GoodRun c rand s (step :: steps)

inductive SafeRun (c : RgbConfig) (rand : Nat → Nat) : RgbState c.ledCount → List RgbStep → Prop where
  | nil (s : RgbState c.ledCount) : SafeRun c rand s []
  | cons {s : RgbState c.ledCount} {step : RgbStep} {steps : List RgbStep} :
      (step = .tick → TickSafe c rand (restarted s)) →
      (∀ t, step.exec c rand s = some t → SafeRun c rand t steps) → SafeRun c rand s (step :: steps)

theorem exec_good {step : RgbStep} (hinv : TwinkleInv s) (h : step = .tick → TickSafe c rand (restarted s)) :
    ∃ t, step.exec c rand s = some t ∧ (step = .tick → FrameGood c s t) ∧ TwinkleInv t := by
  cases step with
  | tick =>
    obtain ⟨t, ht, hframe, hinv'⟩ := timerTask_good hinv (h rfl)
    exact ⟨t, ht, fun _ => hframe, hinv'⟩
  | setEffectRange startPos numLeds => exact ⟨_, rfl, (fun h => by cases h), hinv⟩
  | setMode mode delta => exact ⟨_, rfl, (fun h => by cases h), hinv⟩
  | setHsv hue sat val => exact ⟨_, rfl, (fun h => by cases h), hinv⟩
  | animationTick => exact ⟨_, rfl, (fun h => by cases h), hinv⟩

theorem SafeRun.good {steps : List RgbStep} (hinv : TwinkleInv s) (h : SafeRun c rand s steps) :
    GoodRun c rand s steps := by
  induction h with
  | nil s => exact .nil s
  | cons hsafe _ ih =>
    obtain ⟨t, ht, hframe, hinv'⟩ := exec_good hinv hsafe
    exact .cons ht hframe (ih t ht hinv')

end

/-- In a run whose ticks are safe nothing is divided by 0, only LEDs of the range are set, and each frame of the snake
lights as many LEDs in a row as it is long, or all of the range. -/
theorem rgblight_effects_safe (c : RgbConfig) (rand : Nat → Nat) (mode : Effect) (delta hue sat val : UInt8)
    (steps : List RgbStep) (h : SafeRun c rand (.initial c mode delta hue sat val) steps) :
    GoodRun c rand (.initial c mode delta hue sat val) steps :=
  h.good fun _ hlife => absurd rfl hlife

def breatheTable : List UInt8 :=
  [0x22, 0x28, 0x2D, 0x33, 0x3A, 0x40, 0x47, 0x4E, 0x55, 0x5C, 0x64, 0x6B, 0x73, 0x7B, 0x83, 0x8A,
    0x92, 0x9A, 0xA1, 0xA8, 0xAF, 0xB6, 0xBC, 0xC2, 0xC7, 0xCC, 0xD1, 0xD4, 0xD7, 0xDA, 0xDB, 0xDC,
    0xDD, 0xDC, 0xDB, 0xD9, 0xD7, 0xD3, 0xD0, 0xCB, 0xC6, 0xC1, 0xBB, 0xB4, 0xAE, 0xA7, 0x9F, 0x98,
    0x90, 0x89, 0x81, 0x79, 0x71, 0x69, 0x62, 0x5A, 0x53, 0x4C, 0x45, 0x3E, 0x38, 0x32, 0x2C, 0x26]

def sixLeds : RgbConfig where
  ledCount := 6
  ledCount_pos := Nat.succ_pos 5
  ledCount_le := Nat.le_add_right 6 249
  limitVal := 255
  sync := false
  swirlRange := 255
  snakeLength := 4
  snakeIncrement := 1
  knightLength := 3
  knightIncrement := 1
  knightOffset := 0
  knightLedNum := none
  christmasStep := 2
  christmasStep_pos := Nat.succ_pos 1
  twinkleLife := 200
  twinkleChance := 255 * 1 / 127
  breatheCalc pos := breatheTable.getD (pos.toNat / 4) 0
  breatheCalc_ne := by decide

theorem rgblight_effects_safe_up :
    GoodRun sixLeds (fun _ => 0) (.initial sixLeds .snake 1 0 255 255) [.tick, .setEffectRange 2 4, .tick] := by
  refine rgblight_effects_safe sixLeds (fun _ => 0) .snake 1 0 255 255 _ (.cons (fun _ => ?_) fun t ht =>
    .cons (fun h => by cases h) fun t' ht' => .cons (fun _ => ?_) fun t'' _ => .nil t'')
  · exact ⟨by decide, by decide, by decide, .inr (by decide)⟩
  · cases ht
    cases ht'
    exact ⟨by decide, by decide, by decide, .inr (by decide)⟩

/-- In its second frame the snake lights the LEDs 5, 1 and 2. -/
theorem rgblight_snake_torn : ¬ ∀ (c : RgbConfig) (rand : Nat → Nat) (mode : Effect) (delta hue sat val : UInt8)
    (steps : List RgbStep), GoodRun c rand (.initial c mode delta hue sat val) steps := by
  intro h
  have hrun := h sixLeds (fun _ => 0) .snake 0 0 255 255 [.tick, .tick]
  have hoff : (RgbStep.exec sixLeds (fun _ => 0) (.initial sixLeds .snake 0 0 255 255) .tick).bind (fun s =>
      (RgbStep.exec sixLeds (fun _ => 0) s .tick).map fun t =>
        (s.mode, s.ranges.effectStartPos, s.ranges.effectNumLeds, t.leds 0, t.leds 3)) =
      some (.snake, 0, 6, .off, .off) := by
    decide +kernel
  cases hrun with
  | cons hfirst _ hrest =>
    cases hrest with
    | cons hsecond hframe _ =>
      rw [hfirst, Option.bind_some, hsecond] at hoff
      simp only [Option.map_some, Option.some.injEq, Prod.mk.injEq] at hoff
      obtain ⟨hmode, hstart, hnum, hled0, hled3⟩ := hoff
      obtain ⟨first, hlights⟩ := (hframe rfl).snake hmode
      rw [hstart, hnum] at hlights
      have hlit0 := (not_congr (hlights 0 (by decide))).mp (not_not.mpr hled0)
      have hlit3 := (not_congr (hlights 3 (by decide))).mp (not_not.mpr hled3)
      have hlength : min sixLeds.snakeLength 6 = 4 := rfl
      simp only [hlength, not_exists, not_and] at hlit0 hlit3
      have h0 := hlit0 0 (by decide)
      have h1 := hlit0 1 (by decide)
      have h2 := hlit0 2 (by decide)
      have h3 := hlit0 3 (by decide)
      have h4 := hlit3 0 (by decide)
      have h5 := hlit3 1 (by decide)
      have h6 := hlit3 2 (by decide)
      omega

end Rgblight
end VialQmk
