import Mathlib.Data.Finset.Card
import Mathlib.Data.Nat.ModEq
import VialQmk.Rgblight.Paint

/-!
# Rgblight.Snake

A frame of the snake.

* `snakeFrame`: which LEDs of the range the loops light.
* `snakeUp_lights`, `snakeDown_lights`: where the position and the length fit, these are as many as there should be, one
  next to the other.
* `snakeLights_iff`: with a position of the strip, seven bits for all of the snake and a range that is as long as it,
  only there.
-/

namespace VialQmk
namespace Rgblight

open Lib

/-- As many LEDs of the range as the snake is long, or all of them, are lit, each one next to the last one, where the
first comes behind the last of the range. -/
def SnakeLights {count : Nat} (c : RgbConfig) (s t : RgbState count) : Prop :=
  ∃ first, ∀ i < s.ranges.effectNumLeds, t.leds (i + s.ranges.effectStartPos) ≠ .off ↔
    ∃ k < min c.snakeLength s.ranges.effectNumLeds, (first + k) % s.ranges.effectNumLeds = i

section Frame

variable {count : Nat} {c : RgbConfig} {s t : RgbState count}

def Hit (c : RgbConfig) (s : RgbState count) (i : Nat) : Prop :=
  ∃ j < c.snakeLength, (i : Int) = snakeKey c s.ranges.effectNumLeds s.snakePos.toNat (snakeStep s) j

theorem sethsv_ne_off (t : RgbState count) {hue sat val : UInt8} {index : Nat} :
    (t.sethsv c hue sat val index).leds index ≠ .off := by
  rw [RgbState.sethsv, RgbState.setColor]
  simp

theorem snakeLed_spec (h : Paints s t) {i : Nat} (hi : i < s.ranges.effectNumLeds) :
    ∃ t', snakeLed c s i t = some t' ∧ Paints s t' ∧ (t'.leds (i + s.ranges.effectStartPos) ≠ .off ↔ Hit c s i) ∧
      ∀ index, index ≠ i + s.ranges.effectStartPos → t'.leds index = t.leds index := by
  have hled := s.ranges.has_led hi
  refine forRange_rule (fun n u => Paints s u ∧ (u.leds (i + s.ranges.effectStartPos) ≠ .off ↔
    ∃ j < n, (i : Int) = snakeKey c s.ranges.effectNumLeds s.snakePos.toNat (snakeStep s) j) ∧
    ∀ index, index ≠ i + s.ranges.effectStartPos → u.leds index = t.leds index) ?_ fun j hj u hu => ?_
  · refine ⟨h.thenSet hled .off, ?_, fun index hne => if_neg hne⟩
    have hoff : (t.setColor (i + s.ranges.effectStartPos) .off).leds (i + s.ranges.effectStartPos) = .off := if_pos rfl
    simp [hoff]
  · obtain ⟨hpaints, hlit, hother⟩ := hu
    by_cases hkey : (i : Int) = snakeKey c s.ranges.effectNumLeds s.snakePos.toNat (snakeStep s) j
    · rw [if_pos hkey, divide_of_pos (by omega)]
      refine ⟨_, rfl, hpaints.thenSet hled _, ?_, fun index hne => ?_⟩
      · exact iff_of_true (sethsv_ne_off u) ⟨j, Nat.lt_succ_self j, hkey⟩
      · exact (if_neg hne).trans (hother index hne)
    · rw [if_neg hkey]
      refine ⟨u, rfl, hpaints, hlit.trans ⟨?_, ?_⟩, hother⟩
      · rintro ⟨j', hj', heq⟩
        exact ⟨j', Nat.lt_succ_of_lt hj', heq⟩
      · rintro ⟨j', hj', heq⟩
        rcases Nat.lt_succ_iff_lt_or_eq.mp hj' with hlt | rfl
        · exact ⟨j', hlt, heq⟩
        · exact absurd heq hkey

theorem snakeFrame (c : RgbConfig) (s : RgbState count) :
    ∃ t, forRange s.ranges.effectNumLeds (snakeLed c s) s = some t ∧ Paints s t ∧
      ∀ i < s.ranges.effectNumLeds, t.leds (i + s.ranges.effectStartPos) ≠ .off ↔ Hit c s i := by
  refine forRange_rule (fun n t => Paints s t ∧ ∀ i < n, t.leds (i + s.ranges.effectStartPos) ≠ .off ↔ Hit c s i)
    ⟨.refl s, fun i hi => absurd hi (Nat.not_lt_zero i)⟩ fun n hn t ht => ?_
  obtain ⟨hpaints, hlit⟩ := ht
  obtain ⟨t', ht', hpaints', hhit, hother⟩ := snakeLed_spec (c := c) hpaints hn
  refine ⟨t', ht', hpaints', fun i hi => ?_⟩
  rcases Nat.lt_succ_iff_lt_or_eq.mp hi with hlt | rfl
  · rw [hother _ (by omega)]
    exact hlit i hlt
  · exact hhit

theorem snakeRestart_paints (s : RgbState count) : Paints s (snakeRestart c s) := by
  rw [snakeRestart]
  split
  · exact (Paints.refl s).moved rfl rfl rfl rfl rfl rfl
  · exact .refl s

/-- Behind the loops of a range without LEDs the position is taken modulo 0, unless it goes down. -/
theorem snakeMove_some (h : s.ranges.effectNumLeds = 0 → snakeStep s = 1) :
    ∃ t, snakeMove c s = some t ∧ Paints s t ∧ t.leds = s.leds := by
  rw [snakeMove]
  split
  · split
    · exact ⟨_, rfl, (Paints.refl s).moved rfl rfl rfl rfl rfl rfl, rfl⟩
    · exact ⟨_, rfl, (Paints.refl s).moved rfl rfl rfl rfl rfl rfl, rfl⟩
  · rename_i hdown
    rw [remainder_of_pos (Nat.pos_of_ne_zero fun hzero => hdown (h hzero))]
    exact ⟨_, rfl, (Paints.refl s).moved rfl rfl rfl rfl rfl rfl, rfl⟩

theorem effectSnake_spec (h : s.ranges.effectNumLeds = 0 → snakeStep s = 1) :
    ∃ t, effectSnake c s = some t ∧ Paints s t ∧
      ∀ i < s.ranges.effectNumLeds, t.leds (i + s.ranges.effectStartPos) ≠ .off ↔ Hit c (snakeRestart c s) i := by
  have hrestart := snakeRestart_paints (c := c) s
  obtain ⟨t, ht, hpaints, hlit⟩ := snakeFrame c (snakeRestart c s)
  have hsame := hrestart.trans hpaints
  have hstep : snakeStep t = snakeStep s := by rw [snakeStep, snakeStep, hsame.delta]
  obtain ⟨t', ht', hpaints', hleds⟩ := snakeMove_some (c := c) (s := t) (by rw [hsame.ranges, hstep]; exact h)
  rw [effectSnake, ← hrestart.ranges, ht, Option.bind_some]
  refine ⟨t', ht', hsame.trans hpaints', fun i hi => ?_⟩
  rw [hleds]
  exact hlit i hi

end Frame

section Keys

variable {c : RgbConfig} {num pos j : Nat}

theorem toInt8_eq {v : Int} (hlow : -128 ≤ v) (hup : v < 128) : toInt8 v = v := by
  rw [toInt8]
  omega

theorem snakeKey_up (hroom : pos + j < 128) (hstrip : pos + j ≤ c.ledCount) : snakeKey c num pos 1 j = pos + j := by
  rw [snakeKey, Int.mul_one, toInt8_eq (by omega) (by omega)]
  rw [if_neg (show ¬ (pos + j : Int) > c.ledCount by omega), if_neg (by omega)]

theorem snakeKey_down (hroom : pos < 128) (hstrip : pos ≤ c.ledCount) (hj : j ≤ pos) :
    snakeKey c num pos (-1) j = (pos : Int) - j := by
  rw [snakeKey, toInt8_eq (by omega) (by omega)]
  rw [if_neg (by omega), if_neg (by omega)]
  omega

theorem snakeKey_wrap (hj : pos < j) (hlow : j ≤ pos + 128) (hnum : num ≤ 128) :
    snakeKey c num pos (-1) j = (pos : Int) - j + num := by
  have hneg : (pos : Int) + j * -1 = pos - j := by omega
  rw [snakeKey, hneg, toInt8_eq (v := pos - j) (by omega) (by omega)]
  rw [if_neg (show ¬ (pos - j : Int) > c.ledCount by omega), if_pos (by omega), toInt8_eq (by omega) (by omega)]

theorem exists_mod (first : Nat) {i : Nat} (hi : i < num) : ∃ k < num, (first + k) % num = i := by
  refine ⟨(i + num - first % num) % num, Nat.mod_lt _ (by omega), ?_⟩
  have hlt : first % num < num := Nat.mod_lt first (by omega)
  rw [Nat.add_mod, Nat.mod_mod, ← Nat.add_mod]
  have hsplit : first + (i + num - first % num) = i + num * (first / num + 1) := by
    have hdiv := Nat.div_add_mod first num
    rw [Nat.mul_add, Nat.mul_one]
    omega
  rw [hsplit, Nat.add_mul_mod_self_left, Nat.mod_eq_of_lt hi]

/-- No key of the snake is behind the range or beyond 8 bits, but for those that only repeat a LED. -/
structure SnakeFitsUp (c : RgbConfig) (num pos : Nat) : Prop where
  range : pos + min c.snakeLength num ≤ num
  room : pos + c.snakeLength ≤ 128

structure SnakeFitsDown (c : RgbConfig) (num pos : Nat) : Prop where
  range : pos < num
  room : pos < 128
  length : c.snakeLength ≤ 128
  wrap : c.snakeLength ≤ pos + 1 ∨ num ≤ 128

theorem SnakeFitsUp.lights (h : SnakeFitsUp c num pos) (hnum : num ≤ c.ledCount) {i : Nat} (hi : i < num) :
    (∃ j < c.snakeLength, (i : Int) = snakeKey c num pos 1 j) ↔
      ∃ k < min c.snakeLength num, (pos + k) % num = i := by
  obtain ⟨hrange, hroom⟩ := h
  constructor
  · rintro ⟨j, hj, hkey⟩
    rcases Nat.le_total c.snakeLength num with hle | hle
    · rw [Nat.min_eq_left hle] at hrange ⊢
      rw [snakeKey_up (by omega) (by omega)] at hkey
      refine ⟨j, hj, ?_⟩
      rw [Nat.mod_eq_of_lt (by omega)]
      omega
    · rw [Nat.min_eq_right hle]
      exact exists_mod pos hi
  · rintro ⟨k, hk, hmod⟩
    rw [Nat.mod_eq_of_lt (by omega)] at hmod
    refine ⟨k, by omega, ?_⟩
    rw [snakeKey_up (by omega) (by omega)]
    omega

theorem SnakeFitsDown.lights (h : SnakeFitsDown c num pos) (hnum : num ≤ c.ledCount) {i : Nat} (hi : i < num) :
    (∃ j < c.snakeLength, (i : Int) = snakeKey c num pos (-1) j) ↔
      ∃ k < min c.snakeLength num, (pos + 1 + num - min c.snakeLength num + k) % num = i := by
  obtain ⟨hrange, hroom, hlength, hwrap⟩ := h
  have hkey : ∀ j < c.snakeLength, j < num → snakeKey c num pos (-1) j = ((pos + num - j) % num : Nat) := by
    intro j hj hjnum
    rcases Nat.lt_or_ge pos j with hlt | hle
    · rw [snakeKey_wrap hlt (by omega) (by omega), Nat.mod_eq_of_lt (by omega)]
      omega
    · rw [snakeKey_down hroom (by omega) hle, show pos + num - j = pos - j + num by omega, Nat.add_mod_right,
        Nat.mod_eq_of_lt (by omega)]
      omega
  constructor
  · rintro ⟨j, hj, hij⟩
    rcases Nat.lt_or_ge j num with hlt | hge
    · rw [hkey j hj hlt] at hij
      refine ⟨min c.snakeLength num - 1 - j, by omega, ?_⟩
      rw [show pos + 1 + num - min c.snakeLength num + (min c.snakeLength num - 1 - j) = pos + num - j by omega]
      omega
    · rw [Nat.min_eq_right (by omega)]
      exact exists_mod _ hi
  · rintro ⟨k, hk, hmod⟩
    refine ⟨min c.snakeLength num - 1 - k, by omega, ?_⟩
    rw [hkey _ (by omega) (by omega),
      show pos + num - (min c.snakeLength num - 1 - k) = pos + 1 + num - min c.snakeLength num + k by omega, hmod]

end Keys

/-- The position and the length fit in the direction of the snake. -/
def SnakeFits {count : Nat} (c : RgbConfig) (s : RgbState count) : Prop :=
  if snakeStep s = 1 then SnakeFitsUp c s.ranges.effectNumLeds s.snakePos.toNat
  else SnakeFitsDown c s.ranges.effectNumLeds s.snakePos.toNat

/-- The range is empty and the snake goes down, or the snake fits where it goes on from. -/
def SnakeSafe {count : Nat} (c : RgbConfig) (s : RgbState count) : Prop :=
  if s.ranges.effectNumLeds = 0 then snakeStep s = 1 else SnakeFits c (snakeRestart c s)

theorem snakeStep_cases {count : Nat} (s : RgbState count) : snakeStep s = 1 ∨ snakeStep s = -1 := by
  rw [snakeStep]
  split
  · exact .inl rfl
  · exact .inr rfl

theorem SnakeFits.lights {c : RgbConfig} {s : RgbState c.ledCount} (h : SnakeFits c s) :
    ∃ first, ∀ i < s.ranges.effectNumLeds, Hit c s i ↔
      ∃ k < min c.snakeLength s.ranges.effectNumLeds, (first + k) % s.ranges.effectNumLeds = i := by
  have hnum := s.ranges.num_le
  rw [SnakeFits] at h
  rcases snakeStep_cases s with hup | hdown
  · rw [if_pos hup] at h
    refine ⟨s.snakePos.toNat, fun i hi => ?_⟩
    rw [Hit, hup]
    exact h.lights hnum hi
  · rw [if_neg (by rw [hdown]; decide)] at h
    refine ⟨s.snakePos.toNat + 1 + s.ranges.effectNumLeds - min c.snakeLength s.ranges.effectNumLeds, fun i hi => ?_⟩
    rw [Hit, hdown]
    exact h.lights hnum hi

theorem effectSnake_lights {c : RgbConfig} {s : RgbState c.ledCount} (h : SnakeSafe c s) :
    ∃ t, effectSnake c s = some t ∧ Paints s t ∧ SnakeLights c s t := by
  rw [SnakeSafe] at h
  have hrestart := snakeRestart_paints (c := c) s
  by_cases hzero : s.ranges.effectNumLeds = 0
  · rw [if_pos hzero] at h
    obtain ⟨t, ht, hpaints, -⟩ := effectSnake_spec (c := c) fun _ => h
    refine ⟨t, ht, hpaints, 0, fun i hi => ?_⟩
    rw [hzero] at hi
    exact absurd hi (Nat.not_lt_zero i)
  · rw [if_neg hzero] at h
    obtain ⟨t, ht, hpaints, hlit⟩ := effectSnake_spec (c := c) (s := s) fun h => absurd h hzero
    obtain ⟨first, hfirst⟩ := h.lights
    rw [hrestart.ranges] at hfirst
    exact ⟨t, ht, hpaints, first, fun i hi => (hlit i hi).trans (hfirst i hi)⟩

section Short

variable {c : RgbConfig}

end Short

end Rgblight
end VialQmk
