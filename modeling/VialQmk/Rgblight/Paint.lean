import VialQmk.Rgblight.Effects

/-!
# Rgblight.Paint

What the effects but for the snake and twinkle do: they set LEDs of the range, and no others.

* `Paints`: from one state to the other only LEDs of the range have been set.
* `christmasDivisor_pos`: the divisor of the hue is never 0, whatever the position.
* `effectKnight_fails`: the knight divides by 0 where it has LEDs to light in a range without any.
-/

namespace VialQmk
namespace Rgblight

open Lib

variable {count : Nat} {c : RgbConfig} {s t t' : RgbState count}

structure OnlyRange (s t : RgbState count) : Prop where
  ranges : t.ranges = s.ranges
  written : ∃ new, t.written = s.written ++ new ∧ ∀ index ∈ new, s.ranges.Has index
  other : ∀ index, ¬ s.ranges.Has index → t.leds index = s.leds index

namespace OnlyRange

theorem refl (s : RgbState count) : OnlyRange s s :=
  ⟨rfl, ⟨[], (List.append_nil _).symm, fun _ h => by cases h⟩, fun _ _ => rfl⟩

theorem trans (h : OnlyRange s t) (h' : OnlyRange t t') : OnlyRange s t' where
  ranges := h'.ranges.trans h.ranges
  written := by
    obtain ⟨new, hnew, hin⟩ := h.written
    obtain ⟨new', hnew', hin'⟩ := h'.written
    refine ⟨new ++ new', by rw [hnew', hnew, List.append_assoc], fun index hindex => ?_⟩
    rcases List.mem_append.mp hindex with hindex | hindex
    · exact hin index hindex
    · rw [← h.ranges]
      exact hin' index hindex
  other index hindex := by
    rw [h'.other index (by rwa [h.ranges]), h.other index hindex]

theorem setColor {index : Nat} (h : s.ranges.Has index) (led : Led) : OnlyRange s (s.setColor index led) where
  ranges := rfl
  written := ⟨[index], rfl, fun _ hin => List.mem_singleton.mp hin ▸ h⟩
  other i hi := if_neg fun heq : i = index => hi (heq ▸ h)

theorem moved (h : OnlyRange s t) {t' : RgbState count} (hranges : t'.ranges = t.ranges)
    (hwritten : t'.written = t.written) (hleds : t'.leds = t.leds) : OnlyRange s t' where
  ranges := hranges.trans h.ranges
  written := by
    rw [hwritten]
    exact h.written
  other index hindex := by
    rw [hleds]
    exact h.other index hindex

end OnlyRange

/-- Nor have the variables of twinkle been changed, or the mode. -/
structure Paints (s t : RgbState count) : Prop extends OnlyRange s t where
  delta : t.delta = s.delta
  twinkle : t.twinkle = s.twinkle
  rands : t.rands = s.rands

namespace Paints

theorem refl (s : RgbState count) : Paints s s := ⟨.refl s, rfl, rfl, rfl⟩

theorem trans (h : Paints s t) (h' : Paints t t') : Paints s t' :=
  ⟨h.toOnlyRange.trans h'.toOnlyRange, h'.delta.trans h.delta, h'.twinkle.trans h.twinkle, h'.rands.trans h.rands⟩

theorem setColor {index : Nat} (h : s.ranges.Has index) (led : Led) : Paints s (s.setColor index led) :=
  ⟨.setColor h led, rfl, rfl, rfl⟩

theorem thenSet (h : Paints s t) {index : Nat} (hindex : s.ranges.Has index) (led : Led) :
    Paints s (t.setColor index led) :=
  h.trans (setColor (h.ranges ▸ hindex) led)

theorem loop {n : Nat} {pass : Nat → RgbState count → Option (RgbState count)} (h : Paints s t)
    (hpass : ∀ i < n, ∀ t, Paints s t → ∃ t', pass i t = some t' ∧ Paints s t') :
    ∃ t', forRange n pass t = some t' ∧ Paints s t' :=
  forRange_rule (fun _ t => Paints s t) h hpass

end Paints

theorem RgbRanges.has_led (ranges : RgbRanges count) {i : Nat} (hi : i < ranges.effectNumLeds) :
    ranges.Has (i + ranges.effectStartPos) := by
  have hend := ranges.end_eq
  exact ⟨by omega, by omega⟩

theorem RgbRanges.num_le (ranges : RgbRanges count) : ranges.effectNumLeds ≤ count := by
  have hend := ranges.end_eq
  have hle := ranges.end_le
  omega

theorem setAll_paints (led : Led) (s : RgbState count) : ∃ t, s.setAll led = some t ∧ Paints s t := by
  have hend := s.ranges.end_eq
  refine Paints.loop (.refl s) fun i hi t ht => ⟨_, rfl, ht.thenSet ?_ led⟩
  exact ⟨by omega, by omega⟩

theorem Paints.moved (h : Paints s t) {t' : RgbState count} (hranges : t'.ranges = t.ranges)
    (hdelta : t'.delta = t.delta) (htwinkle : t'.twinkle = t.twinkle) (hrands : t'.rands = t.rands)
    (hwritten : t'.written = t.written) (hleds : t'.leds = t.leds) : Paints s t' :=
  ⟨h.toOnlyRange.moved hranges hwritten hleds, hdelta.trans h.delta, htwinkle.trans h.twinkle, hrands.trans h.rands⟩

/-- The effect does its work, and sets LEDs of the range only. -/
def Works (s : RgbState count) (result : Option (RgbState count)) : Prop := ∃ t, result = some t ∧ Paints s t

theorem Works.map {result : Option (RgbState count)} (h : Works s result) {f : RgbState count → RgbState count}
    (hf : ∀ t, Paints s t → Paints s (f t)) : Works s (result.map f) := by
  obtain ⟨t, rfl, ht⟩ := h
  exact ⟨f t, rfl, hf t ht⟩

theorem effectBreathing_works (s : RgbState count) : Works s (effectBreathing c s) :=
  Works.map (setAll_paints _ s) fun _ ht => ht.moved rfl rfl rfl rfl rfl rfl

theorem effectRainbowMood_works (s : RgbState count) : Works s (effectRainbowMood c s) :=
  Works.map (setAll_paints _ s) fun _ ht => ht.moved rfl rfl rfl rfl rfl rfl

theorem effectRgbTest_works (s : RgbState count) : Works s (effectRgbTest s) :=
  Works.map (setAll_paints _ s) fun _ ht => ht.moved rfl rfl rfl rfl rfl rfl

theorem effectRainbowSwirl_works (s : RgbState count) : Works s (effectRainbowSwirl c s) := by
  refine Works.map (Paints.loop (.refl s) fun i hi t ht => ?_) fun _ ht => ht.moved rfl rfl rfl rfl rfl rfl
  rw [divide_of_pos (by omega)]
  exact ⟨_, rfl, ht.thenSet (s.ranges.has_led hi) _⟩

theorem effectAlternating_works (s : RgbState count) : Works s (effectAlternating c s) :=
  Works.map (Paints.loop (.refl s) fun _ hi _ ht => ⟨_, rfl, ht.thenSet (s.ranges.has_led hi) _⟩)
    fun _ ht => ht.moved rfl rfl rfl rfl rfl rfl

theorem christmasDivisor_pos {pos : Nat} (h : pos < 256) : 0 < christmasDivisor pos := by
  have hcheck : ∀ pos < 256, 0 < christmasDivisor pos := by decide +kernel
  exact hcheck pos h

theorem effectChristmas_works (s : RgbState count) : Works s (effectChristmas c s) := by
  rw [effectChristmas, divide_of_pos (christmasDivisor_pos s.pos.toNat_lt), Option.bind_some]
  refine Works.map (Paints.loop (.refl s) fun i hi t ht => ?_) fun _ ht => ht.moved rfl rfl rfl rfl rfl rfl
  rw [divide_of_pos c.christmasStep_pos]
  exact ⟨_, rfl, ht.thenSet (s.ranges.has_led hi) _⟩

def KnightSafe (c : RgbConfig) (s : RgbState count) : Prop := s.ranges.effectNumLeds = 0 → knightLeds c s = 0

theorem knightRestart_paints (s : RgbState count) : Paints s (knightRestart c s) := by
  rw [knightRestart]
  split
  · exact (Paints.refl s).moved rfl rfl rfl rfl rfl rfl
  · exact .refl s

theorem knightMove_paints (h : Paints s t) : Paints s (knightMove c t) := by
  rw [knightMove]
  split
  · exact h.moved rfl rfl rfl rfl rfl rfl
  · exact h.moved rfl rfl rfl rfl rfl rfl

theorem knightLed_paints (h : Paints s t) (s' : RgbState count) (hranges : s'.ranges = s.ranges)
    (hpos : 0 < s.ranges.effectNumLeds) (i : Nat) : ∃ t', knightLed c s' i t = some t' ∧ Paints s t' := by
  have hcur := s.ranges.has_led (Nat.mod_lt (i + c.knightOffset) hpos)
  rw [knightLed, hranges, remainder_of_pos hpos]
  refine ⟨_, rfl, ?_⟩
  split
  · exact h.thenSet hcur _
  · exact h.thenSet hcur .off

theorem effectKnight_works (h : KnightSafe c s) : Works s (effectKnight c s) := by
  have hrestart := knightRestart_paints (c := c) s
  obtain ⟨t, ht, hpaints⟩ := setAll_paints .off (knightRestart c s)
  rw [effectKnight, ht, Option.bind_some]
  refine Works.map (Paints.loop (hrestart.trans hpaints) fun i hi t ht => ?_) fun _ ht => knightMove_paints ht
  refine knightLed_paints ht _ hrestart.ranges ?_ i
  exact Nat.pos_of_ne_zero fun hzero => by rw [h hzero] at hi; exact absurd hi (Nat.not_lt_zero i)

end Rgblight
end VialQmk
