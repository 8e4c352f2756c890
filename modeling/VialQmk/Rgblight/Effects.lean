import Mathlib.Algebra.Ring.Nat
import VialQmk.Lib.Counting

/-!
# Rgblight.Effects

The animated effects of the RGB light (`rgblight.c`), on the LEDs of a range that may be changed at any time.

* `RgbRanges`: the range that `rgblight_set_effect_range` has taken.
* `effectRainbowSwirl` and so on: the functions of the source. They have no value where one divides by zero.
* `timerTask`: a tick, with the restart that comes with a change of the mode.

The lights are on, and no layer of the RGB light is shown. A LED is told by its index in front of
`rgblight_led_index`.
-/

namespace VialQmk
namespace Rgblight

open Lib

/-- What a LED has been set to; `off` is `set_color` with 0, 0, 0. -/
inductive Led where
  | off
  | rgb (r g b : UInt8)
  | hsv (hue sat val : UInt8)
deriving DecidableEq, Repr

inductive Effect where
  | breathing
  | rainbowMood
  | rainbowSwirl
  | snake
  | knight
  | christmas
  | rgbTest
  | alternating
  | twinkle
deriving DecidableEq, Repr

/-- The configuration. `sync` is `RGBLIGHT_SPLIT` without `RGBLIGHT_SPLIT_NO_ANIMATION_SYNC`, `knightLedNum` is the
range where nothing else is set, `twinkleChance` is `(uint16_t)0xFF * RGBLIGHT_EFFECT_TWINKLE_PROBABILITY`, and
`breatheCalc` is out of a table or a formula. -/
structure RgbConfig where
  ledCount : Nat
  ledCount_pos : 0 < ledCount
  ledCount_le : ledCount ≤ 255
  limitVal : UInt8
  sync : Bool
  swirlRange : Nat
  snakeLength : Nat
  snakeIncrement : Nat
  knightLength : Nat
  knightIncrement : Int
  knightOffset : Nat
  knightLedNum : Option Nat
  christmasStep : Nat
  christmasStep_pos : 0 < christmasStep
  twinkleLife : Nat
  twinkleChance : Nat
  breatheCalc : UInt8 → UInt8
  breatheCalc_ne : breatheCalc 0 ≠ breatheCalc 127

structure RgbRanges (count : Nat) where
  effectStartPos : Nat
  effectEndPos : Nat
  effectNumLeds : Nat
  end_eq : effectEndPos = effectStartPos + effectNumLeds
  end_le : effectEndPos ≤ count

structure TwinkleState where
  hue : UInt8
  sat : UInt8
  val : UInt8
  life : UInt8
  maxLife : UInt8
deriving DecidableEq, Repr

/-- The settings, `animation_status_t`, the static variables of the effects, and the LEDs. `rands` counts the calls of
`rand`, `written` has the LEDs in the order in which they have been set. -/
structure RgbState (count : Nat) where
  ranges : RgbRanges count
  hue : UInt8
  sat : UInt8
  val : UInt8
  mode : Effect
  delta : UInt8
  restart : Bool
  /-- `pos` and `current_hue` share a byte. -/
  pos : UInt8
  snakePos : UInt8
  lowBound : Int
  highBound : Int
  knightIncrement : Int
  christmasIncrement : Int
  twinkle : Nat → TwinkleState
  rands : Nat
  leds : Nat → Led
  written : List Nat

def toInt8 (v : Int) : Int := (v + 128) % 256 - 128

namespace RgbRanges

variable {count : Nat}

def all (count : Nat) : RgbRanges count := ⟨0, count, count, (Nat.zero_add count).symm, Nat.le_refl count⟩

def set (ranges : RgbRanges count) (startPos numLeds : UInt8) : RgbRanges count :=
  if count ≤ startPos.toNat then ranges
  else if h : startPos.toNat + numLeds.toNat ≤ count then
    ⟨startPos.toNat, startPos.toNat + numLeds.toNat, numLeds.toNat, rfl, h⟩
  else ranges

def Has (ranges : RgbRanges count) (index : Nat) : Prop :=
  ranges.effectStartPos ≤ index ∧ index < ranges.effectEndPos

end RgbRanges

namespace RgbState

variable {count : Nat}

def setColor (index : Nat) (led : Led) (s : RgbState count) : RgbState count :=
  { s with
    leds := fun i => if i = index then led else s.leds i
    written := s.written ++ [index] }

def sethsv (c : RgbConfig) (hue sat val : UInt8) (index : Nat) (s : RgbState count) : RgbState count :=
  s.setColor index (.hsv hue sat (if val > c.limitVal then c.limitVal else val))

/-- The loop over the LEDs from `effect_start_pos` to `effect_end_pos`, as in `rgblight_setrgb`. -/
def setAll (led : Led) (s : RgbState count) : Option (RgbState count) :=
  forRange (s.ranges.effectEndPos - s.ranges.effectStartPos)
    (fun i t => some (t.setColor (s.ranges.effectStartPos + i) led)) s

end RgbState

section

variable {count : Nat} (c : RgbConfig)

def effectBreathing (s : RgbState count) : Option (RgbState count) :=
  (s.setAll (.hsv s.hue s.sat (if c.breatheCalc s.pos > c.limitVal then c.limitVal else c.breatheCalc s.pos))).map
    fun t => { t with pos := s.pos + 1 }

def effectRainbowMood (s : RgbState count) : Option (RgbState count) :=
  (s.setAll (.hsv s.pos s.sat (if s.val > c.limitVal then c.limitVal else s.val))).map
    fun t => { t with pos := s.pos + 1 }

def effectRainbowSwirl (s : RgbState count) : Option (RgbState count) :=
  (forRange s.ranges.effectNumLeds (fun i t =>
    (divide c.swirlRange s.ranges.effectNumLeds).map fun range =>
      t.sethsv c (UInt8.ofNat (range * i) + s.pos) s.sat s.val (i + s.ranges.effectStartPos)) s).map
    fun t => { t with pos := if s.delta % 2 = 0 then s.pos - 1 else s.pos + 1 }

def snakeStep (s : RgbState count) : Int := if s.delta % 2 = 0 then 1 else -1

def snakeRestart (s : RgbState count) : RgbState count :=
  if c.sync = true ∧ s.pos = 0 then
    { s with
      snakePos := if snakeStep s = 1 then UInt8.ofNat s.ranges.effectNumLeds - 1 else 0
      pos := 1 }
  else s

def snakeKey (num pos : Nat) (increment : Int) (j : Nat) : Int :=
  let k := toInt8 (pos + j * increment)
  let k := if k > c.ledCount then toInt8 (k % c.ledCount) else k
  if k < 0 then toInt8 (k + num) else k

def snakeLed (s : RgbState count) (i : Nat) (t : RgbState count) : Option (RgbState count) :=
  forRange c.snakeLength (fun j t =>
    if (i : Int) = snakeKey c s.ranges.effectNumLeds s.snakePos.toNat (snakeStep s) j then
      (divide (s.val.toNat * (c.snakeLength - j)) c.snakeLength).map fun val =>
        t.sethsv c s.hue s.sat (UInt8.ofNat val) (i + s.ranges.effectStartPos)
    else some t) (t.setColor (i + s.ranges.effectStartPos) .off)

def snakeMove (s : RgbState count) : Option (RgbState count) :=
  if snakeStep s = 1 then
    if s.snakePos.toNat < c.snakeIncrement then
      some { s with
        snakePos := UInt8.ofNat s.ranges.effectNumLeds - 1
        pos := if c.sync = true then 0 else s.pos }
    else
      some { s with
        snakePos := s.snakePos - UInt8.ofNat c.snakeIncrement
        pos := if c.sync = true then 1 else s.pos }
  else
    (remainder (s.snakePos.toNat + c.snakeIncrement) s.ranges.effectNumLeds).map fun pos =>
      { s with
        snakePos := UInt8.ofNat pos
        pos := if c.sync = true then UInt8.ofNat pos else s.pos }

def effectSnake (s : RgbState count) : Option (RgbState count) :=
  (forRange s.ranges.effectNumLeds (snakeLed c (snakeRestart c s)) (snakeRestart c s)).bind (snakeMove c)

def knightRestart (s : RgbState count) : RgbState count :=
  if c.sync = true ∧ s.pos = 0 then
    { s with
      pos := 1
      lowBound := 0
      highBound := toInt8 (c.knightLength - 1)
      knightIncrement := 1 }
  else s

def knightLeds (s : RgbState count) : Nat := c.knightLedNum.getD s.ranges.effectNumLeds

def knightLed (s : RgbState count) (i : Nat) (t : RgbState count) : Option (RgbState count) :=
  (remainder (i + c.knightOffset) s.ranges.effectNumLeds).map fun cur =>
    if s.lowBound ≤ i ∧ (i : Int) ≤ s.highBound then
      t.sethsv c s.hue s.sat s.val (cur + s.ranges.effectStartPos)
    else t.setColor (cur + s.ranges.effectStartPos) .off

def knightMove (s : RgbState count) : RgbState count :=
  let low := toInt8 (s.lowBound + s.knightIncrement)
  let high := toInt8 (s.highBound + s.knightIncrement)
  if high ≤ 0 ∨ low ≥ (knightLeds c s : Int) - 1 then
    { s with
      lowBound := low
      highBound := high
      knightIncrement := toInt8 (-s.knightIncrement)
      pos := if c.sync = true ∧ toInt8 (-s.knightIncrement) = 1 then 0 else s.pos }
  else
    { s with
      lowBound := low
      highBound := high }

def effectKnight (s : RgbState count) : Option (RgbState count) :=
  (((knightRestart c s).setAll .off).bind fun t =>
    forRange (knightLeds c s) (knightLed c (knightRestart c s)) t).map (knightMove c)

def cubed (x : Nat) : Nat := x * x * x % 2 ^ 32

/-- The divisor of the hue: 32 less the position is in 32 bits. -/
def christmasDivisor (pos : Nat) : Nat := (cubed pos + cubed ((2 ^ 32 + 32 - pos) % 2 ^ 32)) % 2 ^ 32

def christmasVal (hue : Nat) : UInt8 :=
  UInt8.ofInt (255 - (3 * (if hue < 42 then (hue : Int) else 85 - hue)).tdiv 2)

def effectChristmas (s : RgbState count) : Option (RgbState count) :=
  (divide (85 * cubed s.pos.toNat % 2 ^ 32) (christmasDivisor s.pos.toNat)).bind fun quotient =>
    let hue := UInt8.ofNat quotient
    (forRange s.ranges.effectNumLeds (fun i t =>
      (divide i c.christmasStep).map fun step =>
        t.sethsv c (if step % 2 = 0 then 85 - hue else hue) s.sat (christmasVal hue.toNat)
          (i + s.ranges.effectStartPos)) s).map fun t =>
      let increment := if s.pos = 0 then 1 else if s.pos = 32 then -1 else s.christmasIncrement
      { t with
        christmasIncrement := increment
        pos := s.pos + UInt8.ofInt increment }

def effectRgbTest (s : RgbState count) : Option (RgbState count) :=
  (s.setAll (.rgb (if s.pos &&& 1 = 0 then 0 else s.val) (if s.pos &&& 2 = 0 then 0 else s.val)
    (if s.pos &&& 4 = 0 then 0 else s.val))).map fun t => { t with pos := (s.pos + 1) % 8 }

def effectAlternating (s : RgbState count) : Option (RgbState count) :=
  (forRange s.ranges.effectNumLeds (fun i t =>
    some (t.sethsv c s.hue s.sat
      (if i < s.ranges.effectNumLeds / 2 ∧ s.pos ≠ 0 then s.val
        else if s.ranges.effectNumLeds / 2 ≤ i ∧ s.pos = 0 then s.val else 0)
      (i + s.ranges.effectStartPos))) s).map fun t => { t with pos := (s.pos + 1) % 2 }

def frac (n d : UInt8) : Option UInt8 := (divide (255 * n.toNat) d.toNat).map UInt8.ofNat

def scale (v : Nat) (by' : UInt8) : UInt8 := UInt8.ofNat (v % 2 ^ 16 * by'.toNat / 256)

def twinkleTrigger (val : UInt8) : UInt8 := scale c.twinkleChance (127 + val / 2)

/-- `MAX(20, MIN(RGBLIGHT_EFFECT_TWINKLE_LIFE, rgblight_config.val))`. -/
def twinkleMaxLife (val : UInt8) : UInt8 := UInt8.ofNat (max 20 (min c.twinkleLife val.toNat))

def twinkleColour (s : RgbState count) (t : TwinkleState) : TwinkleState :=
  if s.delta / 3 = 0 then { t with hue := s.hue, sat := s.sat } else t

def twinkleFade (s : RgbState count) (t : TwinkleState) : Option TwinkleState :=
  (frac (t.life - 1) t.maxLife).bind fun age =>
    (frac (c.breatheCalc age - c.breatheCalc 0) (c.breatheCalc 127 - c.breatheCalc 0)).map fun unscaled =>
      { t with
        life := t.life - 1
        val := scale s.val.toNat unscaled }

/-- A LED that is selected, and the calls of `rand` that it takes. -/
def twinkleStart (rand : Nat → Nat) (rands : Nat) (s : RgbState count) (t : TwinkleState) :
    Option (TwinkleState × Nat) :=
  let lit (t : TwinkleState) : TwinkleState :=
    { t with
      val := 0
      life := twinkleMaxLife c s.val
      maxLife := twinkleMaxLife c s.val }
  if s.delta / 3 = 0 then some (lit t, rands)
  else
    (remainder (rand (rands + 1)) (s.sat / 2).toNat).map fun sat =>
      (lit { t with hue := UInt8.ofNat (rand rands % 255), sat := UInt8.ofNat sat + s.sat / 2 }, rands + 2)

def twinkleNext (rand : Nat → Nat) (rands : Nat) (s : RgbState count) (t : TwinkleState) :
    Option (TwinkleState × Nat) :=
  let t := twinkleColour s t
  if s.pos = 0 then some ({ t with life := 0, val := 0 }, rands)
  else if t.life ≠ 0 then (twinkleFade c s t).map fun t => (t, rands)
  else if rand rands % 255 < (twinkleTrigger c s.val).toNat then twinkleStart c rand (rands + 1) s t
  else some (t, rands + 1)

def twinkleLed (rand : Nat → Nat) (s : RgbState count) (i : Nat) (t : RgbState count) : Option (RgbState count) :=
  (twinkleNext c rand t.rands s (t.twinkle i)).map fun next =>
    RgbState.sethsv c next.1.hue next.1.sat next.1.val (i + s.ranges.effectStartPos)
      { t with
        twinkle := fun j => if j = i then next.1 else t.twinkle j
        rands := next.2 }

def effectTwinkle (rand : Nat → Nat) (s : RgbState count) : Option (RgbState count) :=
  (forRange s.ranges.effectNumLeds (twinkleLed c rand s) s).map fun t => { t with pos := 1 }

def effectFunc (rand : Nat → Nat) (s : RgbState count) : Option (RgbState count) :=
  match s.mode with
  | .breathing => effectBreathing c s
  | .rainbowMood => effectRainbowMood c s
  | .rainbowSwirl => effectRainbowSwirl c s
  | .snake => effectSnake c s
  | .knight => effectKnight c s
  | .christmas => effectChristmas c s
  | .rgbTest => effectRgbTest s
  | .alternating => effectAlternating c s
  | .twinkle => effectTwinkle c rand s

def restarted (s : RgbState count) : RgbState count :=
  if s.restart = true then { s with restart := false, pos := 0 } else s

def timerTask (rand : Nat → Nat) (s : RgbState count) : Option (RgbState count) := effectFunc c rand (restarted s)

inductive RgbStep where
  | tick
  | setEffectRange (startPos numLeds : UInt8)
  | setMode (mode : Effect) (delta : UInt8)
  | setHsv (hue sat val : UInt8)
  /-- The tick of the other half has come. -/
  | animationTick

def RgbStep.exec (rand : Nat → Nat) (s : RgbState count) : RgbStep → Option (RgbState count)
  | .tick => timerTask c rand s
  | .setEffectRange startPos numLeds => some { s with ranges := s.ranges.set startPos numLeds }
  | .setMode mode delta => some { s with mode := mode, delta := delta, restart := true }
  | .setHsv hue sat val => some { s with hue := hue, sat := sat, val := val }
  | .animationTick => some { s with restart := true }

/-- The variables as they are at the start, with these settings. -/
def RgbState.initial (mode : Effect) (delta hue sat val : UInt8) : RgbState c.ledCount where
  ranges := .all c.ledCount
  hue := hue
  sat := sat
  val := val
  mode := mode
  delta := delta
  restart := true
  pos := 0
  snakePos := 0
  lowBound := 0
  highBound := toInt8 (c.knightLength - 1)
  knightIncrement := toInt8 c.knightIncrement
  christmasIncrement := 1
  twinkle _ := ⟨0, 0, 0, 0, 0⟩
  rands := 0
  leds _ := .off
  written := []

end

end Rgblight
end VialQmk
