import VialQmk.Lib.Dirty

/-!
# Split.RgbLight

The settings of the RGB light that the two halves share, as `rgblight.c` changes them, with the flags that
tell the other half what changed. The LEDs themselves are left out.

* `Tracks`: every change flags the settings it changes, when `rgblight_check_config` finds nothing to correct.
* `Coherent`: the animation timer runs for animated modes only, and a change of the mode flags it.
* `updateSync_settings`: what the other half has after taking the flagged settings over.
-/

namespace VialQmk
namespace Split

open Lib

/-- The effect a mode belongs to, as `mode_base_table` tells it. -/
inductive Effect where
  | staticLight
  | breathing
  | rainbowMood
  | rainbowSwirl
  | staticGradient
  | other
deriving DecidableEq, Repr

structure ChangeFlags where
  mode : Bool := false
  hsvs : Bool := false
  timer : Bool := false
  animationTick : Bool := false
  layers : Bool := false
deriving DecidableEq, Repr

@[ext] structure RgbConfig where
  enable : Bool
  mode : UInt8
  hue : UInt8
  sat : UInt8
  val : UInt8
deriving DecidableEq, Repr

/-- What a build settles: `RGBLIGHT_MODES`, `RGBLIGHT_LIMIT_VAL`, the table of the modes' effects and the
default configuration. -/
structure RgbBuild where
  modes : UInt8
  limitVal : UInt8
  effect : UInt8 → Effect
  default : RgbConfig
  one_le_modes : 1 ≤ modes
  effect_one : effect 1 = .staticLight

/-- `rgblight_config` and `rgblight_status`, which is also what the halves exchange. The layer mask has `w` bits. -/
structure Rgb (w : Nat) where
  config : RgbConfig
  timerEnabled : Bool
  changeFlags : ChangeFlags
  enabledLayerMask : BitVec w
deriving DecidableEq, Repr

namespace Rgb

variable {w : Nat} (b : RgbBuild)

def zero : Rgb w := ⟨⟨false, 0, 0, 0, 0⟩, false, {}, 0⟩

def setChangeMode (r : Rgb w) : Rgb w := { r with changeFlags := { r.changeFlags with mode := true } }

def setChangeHsvs (r : Rgb w) : Rgb w := { r with changeFlags := { r.changeFlags with hsvs := true } }

def setChangeTimerEnable (r : Rgb w) : Rgb w := { r with changeFlags := { r.changeFlags with timer := true } }

def setChangeLayers (r : Rgb w) : Rgb w := { r with changeFlags := { r.changeFlags with layers := true } }

def setAnimationTick (r : Rgb w) : Rgb w := { r with changeFlags := { r.changeFlags with animationTick := true } }

def clearChangeFlags (r : Rgb w) : Rgb w := { r with changeFlags := {} }

def isStaticEffect (mode : UInt8) : Bool :=
  b.effect mode = .staticLight || b.effect mode = .staticGradient

def clampMode (mode : UInt8) : UInt8 := if mode < 1 then 1 else if b.modes < mode then b.modes else mode

def clampVal (val : UInt8) : UInt8 := if b.limitVal < val then b.limitVal else val

def checkConfig (r : Rgb w) : Rgb w :=
  { r with config := { r.config with
      mode := clampMode b r.config.mode
      val := clampVal b r.config.val } }

/-- `eeconfig_update_rgblight`; the words written are left out. -/
def eeconfigUpdate (r : Rgb w) (writeToEeprom : Bool) : Rgb w :=
  if writeToEeprom then checkConfig b r else r

def timerInit (r : Rgb w) : Rgb w := setChangeTimerEnable { r with timerEnabled := false }

def timerEnable (r : Rgb w) : Rgb w :=
  setChangeTimerEnable (if isStaticEffect b r.config.mode then r else { r with timerEnabled := true })

def timerDisable (r : Rgb w) : Rgb w := setChangeTimerEnable { r with timerEnabled := false }

def timerToggle (r : Rgb w) : Rgb w := if r.timerEnabled then timerDisable r else timerEnable b r

/-- The breathing effect keeps the brightness, the rainbow effects keep the hue. -/
def sethsvHelper (r : Rgb w) (hue sat val : UInt8) (writeToEeprom : Bool) : Rgb w :=
  if r.config.enable then
    let r := if r.config.hue ≠ hue ∨ r.config.sat ≠ sat ∨ r.config.val ≠ val then setChangeHsvs r else r
    let (hue, val) := match b.effect r.config.mode with
      | .breathing => (hue, r.config.val)
      | .rainbowMood | .rainbowSwirl => (r.config.hue, val)
      | _ => (hue, val)
    eeconfigUpdate b { r with config := { r.config with hue, sat, val } } writeToEeprom
  else r

def modeHelper (r : Rgb w) (mode : UInt8) (writeToEeprom : Bool) : Rgb w :=
  if r.config.enable then
    let r := setChangeMode { r with config := { r.config with mode := clampMode b mode } }
    let r := eeconfigUpdate b r writeToEeprom
    let r := if isStaticEffect b r.config.mode then timerDisable r else timerEnable b r
    sethsvHelper b r r.config.hue r.config.sat r.config.val false
  else r

def setEnable (r : Rgb w) (enable : Bool) : Rgb w := { r with config := { r.config with enable } }

def enable (r : Rgb w) (writeToEeprom : Bool) : Rgb w :=
  modeHelper b (setEnable r true) r.config.mode writeToEeprom

def disable (r : Rgb w) (writeToEeprom : Bool) : Rgb w :=
  setChangeMode (timerDisable (eeconfigUpdate b (setEnable r false) writeToEeprom))

def toggle (r : Rgb w) (writeToEeprom : Bool) : Rgb w :=
  if r.config.enable then disable b r writeToEeprom else enable b r writeToEeprom

def setLayerState (r : Rgb w) (layer : Nat) (enabled : Bool) : Rgb w :=
  let mask := 1#w <<< layer
  setChangeLayers { r with
    enabledLayerMask := if enabled then r.enabledLayerMask ||| mask else r.enabledLayerMask &&& ~~~mask }

/-- `rgblight_reload_from_eeprom`, when the EEPROM holds `raw`. -/
def reloadFromEeprom (r : Rgb w) (raw : RgbConfig) : Rgb w :=
  let r := checkConfig b (setChangeHsvs (setChangeMode { r with config := raw }))
  if r.config.enable then modeHelper b r r.config.mode false else r

def updateQword (r : Rgb w) (qword : RgbConfig) : Rgb w :=
  let r := setChangeHsvs (setChangeMode { r with config := qword })
  if r.config.enable then modeHelper b r r.config.mode false else timerDisable r

def init (raw : RgbConfig) : Rgb w :=
  let r := setChangeHsvs (setChangeMode { zero with config := if raw.mode = 0 then b.default else raw })
  let r := timerInit (checkConfig b r)
  if r.config.enable then modeHelper b r r.config.mode false else r

def takeLayers (syncinfo r : Rgb w) : Rgb w :=
  if syncinfo.changeFlags.layers then { r with enabledLayerMask := syncinfo.enabledLayerMask } else r

def takeMode (syncinfo r : Rgb w) : Rgb w :=
  if syncinfo.changeFlags.mode then
    if syncinfo.config.enable then modeHelper b (setEnable r true) syncinfo.config.mode false
    else disable b r false
  else r

def takeHsvs (syncinfo r : Rgb w) : Rgb w :=
  if syncinfo.changeFlags.hsvs then
    sethsvHelper b r syncinfo.config.hue syncinfo.config.sat syncinfo.config.val false
  else r

def takeTimer (syncinfo r : Rgb w) : Rgb w :=
  if syncinfo.changeFlags.timer then
    if syncinfo.timerEnabled then timerEnable b r else timerDisable r
  else r

/-- `rgblight_update_sync`, which the other half calls without writing its EEPROM. -/
def updateSync (syncinfo r : Rgb w) : Rgb w :=
  takeTimer b syncinfo (takeHsvs b syncinfo (takeMode b syncinfo (takeLayers syncinfo r)))

inductive Change where
  | mode (mode : UInt8) (writeToEeprom : Bool)
  | enable (writeToEeprom : Bool)
  | disable (writeToEeprom : Bool)
  | toggle (writeToEeprom : Bool)
  | sethsv (hue sat val : UInt8) (writeToEeprom : Bool)
  | setLayerState (layer : Nat) (enabled : Bool)
  | timerEnable
  | timerDisable
  | timerToggle
  | animationTick
  | updateCurrent
  | reloadFromEeprom (raw : RgbConfig)
  | updateQword (qword : RgbConfig)
deriving DecidableEq, Repr

def change (r : Rgb w) : Change → Rgb w
  | .mode mode writeToEeprom => modeHelper b r mode writeToEeprom
  | .enable writeToEeprom => r.enable b writeToEeprom
  | .disable writeToEeprom => r.disable b writeToEeprom
  | .toggle writeToEeprom => r.toggle b writeToEeprom
  | .sethsv hue sat val writeToEeprom => sethsvHelper b r hue sat val writeToEeprom
  | .setLayerState layer enabled => r.setLayerState layer enabled
  | .timerEnable => r.timerEnable b
  | .timerDisable => r.timerDisable
  | .timerToggle => r.timerToggle b
  | .animationTick => r.setAnimationTick
  | .updateCurrent => eeconfigUpdate b r true
  | .reloadFromEeprom raw => r.reloadFromEeprom b raw
  | .updateQword qword => r.updateQword b qword

inductive Part where
  | mode
  | hsvs
  | timer
  | layers
deriving DecidableEq, Repr

abbrev Part.Value (w : Nat) : Part → Type
  | .mode => Bool × UInt8
  | .hsvs => UInt8 × UInt8 × UInt8
  | .timer => Bool
  | .layers => BitVec w

def settings (w : Nat) : Dirty (Rgb w) Part (Part.Value w) where
  value r
    | .mode => (r.config.enable, r.config.mode)
    | .hsvs => (r.config.hue, r.config.sat, r.config.val)
    | .timer => r.timerEnabled
    | .layers => r.enabledLayerMask
  marked r
    | .mode => r.changeFlags.mode
    | .hsvs => r.changeFlags.hsvs
    | .timer => r.changeFlags.timer
    | .layers => r.changeFlags.layers

theorem Part.forall {P : Part → Prop} : (∀ p, P p) ↔ P .mode ∧ P .hsvs ∧ P .timer ∧ P .layers := by
  constructor
  · intro h
    exact ⟨h .mode, h .hsvs, h .timer, h .layers⟩
  · rintro ⟨hmode, hhsvs, htimer, hlayers⟩ p
    cases p with
    | mode => exact hmode
    | hsvs => exact hhsvs
    | timer => exact htimer
    | layers => exact hlayers

variable {r : Rgb w}

theorem tracks_iff {r' : Rgb w} : (settings w).Tracks r r' ↔
    (settings w).Covers r r' ∧ (settings w).AgreeOff ((settings w).marked r') r r' :=
  ⟨fun h => ⟨h.covers, h.agree⟩, fun h => ⟨h.1, h.2⟩⟩

variable {b}

theorem clampMode_bounds (mode : UInt8) : 1 ≤ clampMode b mode ∧ clampMode b mode ≤ b.modes := by
  have hmodes := b.one_le_modes
  rw [clampMode]
  split
  · exact ⟨UInt8.le_refl 1, hmodes⟩
  · split
    · exact ⟨hmodes, UInt8.le_refl _⟩
    · exact ⟨UInt8.not_lt.mp ‹_›, UInt8.not_lt.mp ‹_›⟩

theorem clampMode_of_bounds {mode : UInt8} (h : 1 ≤ mode ∧ mode ≤ b.modes) : clampMode b mode = mode := by
  rw [clampMode, if_neg (UInt8.not_lt.mpr h.1), if_neg (UInt8.not_lt.mpr h.2)]

@[simp] theorem clampMode_clampMode (mode : UInt8) : clampMode b (clampMode b mode) = clampMode b mode :=
  clampMode_of_bounds (clampMode_bounds mode)

theorem clampVal_of_le {val : UInt8} (h : val ≤ b.limitVal) : clampVal b val = val := by
  rw [clampVal, if_neg (UInt8.not_lt.mpr h)]

/-- The brightness after a call that writes the EEPROM or not. -/
def savedVal (b : RgbBuild) (val : UInt8) (writeToEeprom : Bool) : UInt8 :=
  if writeToEeprom then clampVal b val else val

theorem sethsvHelper_own (h : r.config.enable = true) (writeToEeprom : Bool) :
    sethsvHelper b r r.config.hue r.config.sat r.config.val writeToEeprom = eeconfigUpdate b r writeToEeprom := by
  rw [sethsvHelper, if_pos h]
  cases heffect : b.effect r.config.mode <;> simp [heffect]

theorem sethsvHelper_self (r : Rgb w) :
    sethsvHelper b r r.config.hue r.config.sat r.config.val false = r := by
  cases h : r.config.enable with
  | true => exact sethsvHelper_own h false
  | false => rw [sethsvHelper, h, if_neg Bool.false_ne_true]

theorem sethsvHelper_other (h : r.config.enable = true) {hue sat val : UInt8}
    (hne : r.config.hue ≠ hue ∨ r.config.sat ≠ sat ∨ r.config.val ≠ val) (writeToEeprom : Bool) :
    sethsvHelper b r hue sat val writeToEeprom = eeconfigUpdate b { setChangeHsvs r with
      config := { r.config with
        hue := if b.effect r.config.mode = .rainbowMood ∨ b.effect r.config.mode = .rainbowSwirl
          then r.config.hue else hue
        sat
        val := if b.effect r.config.mode = .breathing then r.config.val else val } } writeToEeprom := by
  rw [sethsvHelper, if_pos h]
  cases heffect : b.effect r.config.mode <;> simp [hne, heffect, setChangeHsvs]

theorem modeHelper_eq (h : r.config.enable = true) (mode : UInt8) (writeToEeprom : Bool) :
    modeHelper b r mode writeToEeprom =
      { r with
        config := { r.config with
          mode := clampMode b mode
          val := savedVal b r.config.val writeToEeprom }
        timerEnabled := !isStaticEffect b (clampMode b mode)
        changeFlags := { r.changeFlags with mode := true, timer := true } } := by
  rw [modeHelper, if_pos h, sethsvHelper_self]
  cases writeToEeprom <;> cases hstatic : isStaticEffect b (clampMode b mode) <;>
    simp [eeconfigUpdate, checkConfig, setChangeMode, timerDisable, timerEnable, setChangeTimerEnable, savedVal,
      hstatic]

theorem disable_eq (r : Rgb w) (writeToEeprom : Bool) :
    disable b r writeToEeprom =
      { r with
        config := { r.config with
          enable := false
          mode := if writeToEeprom then clampMode b r.config.mode else r.config.mode
          val := savedVal b r.config.val writeToEeprom }
        timerEnabled := false
        changeFlags := { r.changeFlags with mode := true, timer := true } } := by
  cases writeToEeprom <;>
    simp [disable, setEnable, eeconfigUpdate, checkConfig, timerDisable, setChangeTimerEnable, setChangeMode, savedVal]

/-- `rgblight_check_config` has no brightness to correct, or its change is already flagged. -/
def ValChecked (b : RgbBuild) (r : Rgb w) : Prop := r.config.val ≤ b.limitVal ∨ r.changeFlags.hsvs = true

/-- It has no mode to correct, or the change is already flagged and meets no animation. -/
def ModeChecked (b : RgbBuild) (r : Rgb w) : Prop :=
  (1 ≤ r.config.mode ∧ r.config.mode ≤ b.modes) ∨ (r.changeFlags.mode = true ∧ r.timerEnabled = false)

def Change.Fits (b : RgbBuild) (r : Rgb w) : Change → Prop
  | .mode _ writeToEeprom => r.config.enable = true → writeToEeprom = true → ValChecked b r
  | .enable writeToEeprom => writeToEeprom = true → ValChecked b r
  | .disable writeToEeprom => writeToEeprom = true → ValChecked b r
  | .toggle writeToEeprom => writeToEeprom = true → ValChecked b r
  | .sethsv _ _ _ writeToEeprom => r.config.enable = true → writeToEeprom = true → ValChecked b r
  | .updateCurrent => ValChecked b r ∧ ModeChecked b r
  | .reloadFromEeprom raw => raw.enable = true ∨ r.timerEnabled = false
  | _ => True

theorem savedVal_of_checked {writeToEeprom : Bool} (h : writeToEeprom = true → ValChecked b r)
    (hflag : r.changeFlags.hsvs = false) : savedVal b r.config.val writeToEeprom = r.config.val := by
  rw [savedVal]
  split
  · rename_i hwrite
    rcases h hwrite with hval | hhsvs
    · exact clampVal_of_le hval
    · rw [hhsvs] at hflag
      exact nomatch hflag
  · rfl

/-- The timer runs for animated modes only; a flagged mode comes with the flag of the timer, unless the light
and the timer are off; the mode of a light that is on is one of the table. -/
structure Coherent (b : RgbBuild) (r : Rgb w) : Prop where
  animated : r.timerEnabled = true → isStaticEffect b r.config.mode = false
  timer : r.changeFlags.mode = true →
    r.changeFlags.timer = true ∨ (r.config.enable = false ∧ r.timerEnabled = false)
  mode : r.config.enable = true → 1 ≤ r.config.mode ∧ r.config.mode ≤ b.modes

theorem modeHelper_tracks {r' : Rgb w} (h : r'.config.enable = true) (mode : UInt8) {writeToEeprom : Bool}
    (hval : writeToEeprom = true → ValChecked b r) (hsame : r' = setEnable r true) :
    (settings w).Tracks r (modeHelper b r' mode writeToEeprom) := by
  rw [modeHelper_eq h, tracks_iff]
  subst hsame
  simp only [Dirty.Covers, Dirty.AgreeOff, Part.forall, settings, setEnable, Prod.mk.injEq, true_and, and_true,
    imp_self, implies_true, Bool.true_eq_false, false_imp_iff]
  intro hflag
  exact (savedVal_of_checked hval hflag).symm

theorem checkConfig_tracks (hval : ValChecked b r)
    (hmode : (1 ≤ r.config.mode ∧ r.config.mode ≤ b.modes) ∨ r.changeFlags.mode = true) :
    (settings w).Tracks r (checkConfig b r) := by
  have hsaved : r.changeFlags.hsvs = false → savedVal b r.config.val true = r.config.val :=
    savedVal_of_checked fun _ => hval
  rw [tracks_iff]
  simp only [Dirty.Covers, Dirty.AgreeOff, Part.forall, settings, checkConfig, Prod.mk.injEq, true_and, and_true,
    imp_self, implies_true]
  constructor
  · intro hflag
    rcases hmode with hbounds | hmarked
    · exact (clampMode_of_bounds hbounds).symm
    · rw [hflag] at hmarked
      exact nomatch hmarked
  · intro hflag
    exact (hsaved hflag).symm

theorem disable_tracks (r : Rgb w) {writeToEeprom : Bool} (hval : writeToEeprom = true → ValChecked b r) :
    (settings w).Tracks r (disable b r writeToEeprom) := by
  rw [disable_eq, tracks_iff]
  simp only [Dirty.Covers, Dirty.AgreeOff, Part.forall, settings, Prod.mk.injEq, true_and, and_true,
    imp_self, implies_true, Bool.true_eq_false, false_imp_iff]
  intro hflag
  exact (savedVal_of_checked hval hflag).symm

theorem sethsvHelper_tracks (hue sat val : UInt8) {writeToEeprom : Bool} (hr : Coherent b r)
    (hval : r.config.enable = true → writeToEeprom = true → ValChecked b r) :
    (settings w).Tracks r (sethsvHelper b r hue sat val writeToEeprom) := by
  cases hon : r.config.enable with
  | false =>
    rw [sethsvHelper, hon, if_neg Bool.false_ne_true]
    exact Dirty.Tracks.refl r
  | true =>
    have hbounds := hr.mode hon
    by_cases hne : r.config.hue ≠ hue ∨ r.config.sat ≠ sat ∨ r.config.val ≠ val
    · rw [sethsvHelper_other hon hne, tracks_iff]
      cases writeToEeprom <;>
        simp [Dirty.Covers, Dirty.AgreeOff, Part.forall, settings, eeconfigUpdate, checkConfig, setChangeHsvs,
          clampMode_of_bounds hbounds]
    · obtain ⟨rfl, rfl, rfl⟩ : r.config.hue = hue ∧ r.config.sat = sat ∧ r.config.val = val := by
        simpa only [not_or, not_not] using hne
      rw [sethsvHelper_own hon, eeconfigUpdate]
      split
      · exact checkConfig_tracks (hval hon ‹_›) (.inl hbounds)
      · exact Dirty.Tracks.refl r

theorem timerEnable_tracks (r : Rgb w) : (settings w).Tracks r (timerEnable b r) := by
  rw [timerEnable, tracks_iff]
  cases isStaticEffect b r.config.mode <;>
    simp [Dirty.Covers, Dirty.AgreeOff, Part.forall, settings, setChangeTimerEnable]

theorem timerDisable_tracks (r : Rgb w) : (settings w).Tracks r (timerDisable r) := by
  rw [timerDisable, tracks_iff]
  simp [Dirty.Covers, Dirty.AgreeOff, Part.forall, settings, setChangeTimerEnable]

theorem enable_tracks (r : Rgb w) {writeToEeprom : Bool} (hval : writeToEeprom = true → ValChecked b r) :
    (settings w).Tracks r (enable b r writeToEeprom) :=
  modeHelper_tracks rfl _ hval rfl

theorem replaced_tracks (r : Rgb w) (raw : RgbConfig) :
    (settings w).Tracks r (setChangeHsvs (setChangeMode { r with config := raw })) := by
  rw [tracks_iff]
  simp [Dirty.Covers, Dirty.AgreeOff, Part.forall, settings, setChangeHsvs, setChangeMode]

theorem on_modeHelper_tracks (h : r.config.enable = true) (mode : UInt8) {writeToEeprom : Bool}
    (hval : writeToEeprom = true → ValChecked b r) : (settings w).Tracks r (modeHelper b r mode writeToEeprom) := by
  refine modeHelper_tracks h mode hval ?_
  rw [setEnable, ← h]

theorem change_tracks {c : Change} (hr : Coherent b r) (hfits : c.Fits b r) :
    (settings w).Tracks r (r.change b c) := by
  cases c with
  | mode mode writeToEeprom =>
    cases hon : r.config.enable with
    | true => exact on_modeHelper_tracks hon mode (hfits hon)
    | false =>
      rw [change, modeHelper, hon, if_neg Bool.false_ne_true]
      exact Dirty.Tracks.refl r
  | enable writeToEeprom => exact enable_tracks r hfits
  | disable writeToEeprom => exact disable_tracks r hfits
  | toggle writeToEeprom =>
    rw [change, toggle]
    split
    · exact disable_tracks r hfits
    · exact enable_tracks r hfits
  | sethsv hue sat val writeToEeprom => exact sethsvHelper_tracks hue sat val hr hfits
  | setLayerState layer enabled =>
    rw [change, setLayerState, tracks_iff]
    simp [Dirty.Covers, Dirty.AgreeOff, Part.forall, settings, setChangeLayers]
  | timerEnable => exact timerEnable_tracks r
  | timerDisable => exact timerDisable_tracks r
  | timerToggle =>
    rw [change, timerToggle]
    split
    · exact timerDisable_tracks r
    · exact timerEnable_tracks r
  | animationTick =>
    rw [change, setAnimationTick, tracks_iff]
    simp [Dirty.Covers, Dirty.AgreeOff, settings]
  | updateCurrent => exact checkConfig_tracks hfits.1 (hfits.2.imp_right And.left)
  | reloadFromEeprom raw =>
    have htracks : (settings w).Tracks r (checkConfig b (setChangeHsvs (setChangeMode { r with config := raw }))) :=
      (replaced_tracks r raw).trans (checkConfig_tracks (.inr rfl) (.inr rfl))
    rw [change, reloadFromEeprom]
    split
    · exact htracks.trans (on_modeHelper_tracks ‹_› _ fun h => nomatch h)
    · exact htracks
  | updateQword qword =>
    have htracks := replaced_tracks r qword
    rw [change, updateQword]
    split
    · exact htracks.trans (on_modeHelper_tracks ‹_› _ fun h => nomatch h)
    · exact htracks.trans (timerDisable_tracks _)

theorem modeHelper_coherent (h : r.config.enable = true) (mode : UInt8) (writeToEeprom : Bool) :
    Coherent b (modeHelper b r mode writeToEeprom) := by
  rw [modeHelper_eq h]
  refine ⟨?_, fun _ => .inl rfl, fun _ => clampMode_bounds mode⟩
  intro hanimated
  simpa using hanimated

theorem disable_coherent (r : Rgb w) (writeToEeprom : Bool) : Coherent b (disable b r writeToEeprom) := by
  rw [disable_eq]
  exact ⟨(nomatch ·), fun _ => .inl rfl, (nomatch ·)⟩

theorem timerDisable_coherent (hmode : r.config.enable = true → 1 ≤ r.config.mode ∧ r.config.mode ≤ b.modes) :
    Coherent b (timerDisable r) :=
  ⟨(nomatch ·), fun _ => .inl rfl, hmode⟩

theorem Coherent.timerEnable (h : Coherent b r) : Coherent b (timerEnable b r) := by
  rw [Rgb.timerEnable]
  split
  · exact ⟨h.animated, fun _ => .inl rfl, h.mode⟩
  · rename_i hstatic
    have hanimated : isStaticEffect b r.config.mode = false := by simpa using hstatic
    exact ⟨fun _ => hanimated, fun _ => .inl rfl, h.mode⟩

theorem checkConfig_coherent (hr : Coherent b r) (hmode : ModeChecked b r) : Coherent b (checkConfig b r) := by
  refine ⟨?_, hr.timer, fun _ => clampMode_bounds _⟩
  intro hanimated
  rcases hmode with hbounds | ⟨_, hoff⟩
  · simp only [checkConfig, clampMode_of_bounds hbounds]
    exact hr.animated hanimated
  · rw [checkConfig, hoff] at hanimated
    exact nomatch hanimated

theorem Coherent.sethsvHelper (h : Coherent b r) (hue sat val : UInt8) (writeToEeprom : Bool) :
    Coherent b (sethsvHelper b r hue sat val writeToEeprom) := by
  cases hon : r.config.enable with
  | false =>
    rw [Rgb.sethsvHelper, hon, if_neg Bool.false_ne_true]
    exact h
  | true =>
    have hbounds := h.mode hon
    by_cases hne : r.config.hue ≠ hue ∨ r.config.sat ≠ sat ∨ r.config.val ≠ val
    · rw [sethsvHelper_other hon hne, eeconfigUpdate]
      have hset : ∀ hue sat val, Coherent b { setChangeHsvs r with config := { r.config with hue, sat, val } } :=
        fun _ _ _ => ⟨h.animated, h.timer, h.mode⟩
      split
      · exact checkConfig_coherent (hset _ _ _) (.inl hbounds)
      · exact hset _ _ _
    · obtain ⟨rfl, rfl, rfl⟩ : r.config.hue = hue ∧ r.config.sat = sat ∧ r.config.val = val := by
        simpa only [not_or, not_not] using hne
      rw [sethsvHelper_own hon, eeconfigUpdate]
      split
      · exact checkConfig_coherent h (.inl hbounds)
      · exact h

theorem enable_coherent (r : Rgb w) (writeToEeprom : Bool) : Coherent b (enable b r writeToEeprom) :=
  modeHelper_coherent (show (setEnable r true).config.enable = true from rfl) _ _

theorem change_coherent {c : Change} (hr : Coherent b r) (hfits : c.Fits b r) : Coherent b (r.change b c) := by
  cases c with
  | mode mode writeToEeprom =>
    cases hon : r.config.enable with
    | true => exact modeHelper_coherent hon mode writeToEeprom
    | false =>
      rw [change, modeHelper, hon, if_neg Bool.false_ne_true]
      exact hr
  | enable writeToEeprom => exact enable_coherent r _
  | disable writeToEeprom => exact disable_coherent r _
  | toggle writeToEeprom =>
    rw [change, toggle]
    split
    · exact disable_coherent r _
    · exact enable_coherent r _
  | sethsv hue sat val writeToEeprom => exact hr.sethsvHelper hue sat val writeToEeprom
  | setLayerState layer enabled => exact ⟨hr.animated, hr.timer, hr.mode⟩
  | timerEnable => exact hr.timerEnable
  | timerDisable => exact timerDisable_coherent hr.mode
  | timerToggle =>
    rw [change, timerToggle]
    split
    · exact timerDisable_coherent hr.mode
    · exact hr.timerEnable
  | animationTick => exact ⟨hr.animated, hr.timer, hr.mode⟩
  | updateCurrent => exact checkConfig_coherent hr hfits.2
  | reloadFromEeprom raw =>
    rw [change, reloadFromEeprom]
    split
    · exact modeHelper_coherent ‹_› _ _
    · rename_i hoff
      have hraw : raw.enable = false := Bool.eq_false_iff.mpr hoff
      have htimer : r.timerEnabled = false := hfits.resolve_left hoff
      refine ⟨?_, fun _ => .inr ⟨hraw, htimer⟩, fun _ => clampMode_bounds _⟩
      intro hanimated
      exact absurd (htimer.symm.trans hanimated) Bool.false_ne_true
  | updateQword qword =>
    rw [change, updateQword]
    split
    · exact modeHelper_coherent ‹_› _ _
    · exact timerDisable_coherent fun hon => absurd hon ‹_›

theorem init_coherent (raw : RgbConfig) : Coherent b (init b raw : Rgb w) := by
  rw [init]
  generalize (if raw.mode = 0 then b.default else raw) = config
  split
  · exact modeHelper_coherent ‹_› _ _
  · exact timerDisable_coherent fun hon => absurd hon ‹_›

theorem init_flags (raw : RgbConfig) :
    (init b raw : Rgb w).changeFlags = { mode := true, hsvs := true, timer := true } ∧
      (init b raw : Rgb w).enabledLayerMask = 0 := by
  rw [init]
  generalize (if raw.mode = 0 then b.default else raw) = config
  split
  · rw [modeHelper_eq ‹_›]
    exact ⟨rfl, rfl⟩
  · exact ⟨rfl, rfl⟩

/-- What the other half needs to have already, where `rgblight_update_sync` leaves a setting out: the mode and
the colour of a light that is off, the brightness of the breathing effect, the hue of the rainbow effects. -/
structure TakesOver (b : RgbBuild) (syncinfo r : Rgb w) : Prop where
  mode : syncinfo.changeFlags.mode = true → syncinfo.config.enable = false → r.config.mode = syncinfo.config.mode
  off : syncinfo.changeFlags.hsvs = true → syncinfo.config.enable = false →
    (r.config.hue, r.config.sat, r.config.val) = (syncinfo.config.hue, syncinfo.config.sat, syncinfo.config.val)
  breathing : syncinfo.changeFlags.hsvs = true → b.effect syncinfo.config.mode = .breathing →
    r.config.val = syncinfo.config.val
  rainbow : syncinfo.changeFlags.hsvs = true →
    b.effect syncinfo.config.mode = .rainbowMood ∨ b.effect syncinfo.config.mode = .rainbowSwirl →
    r.config.hue = syncinfo.config.hue

section Update

variable {syncinfo r : Rgb w}

theorem takeLayers_settings (h : syncinfo.changeFlags.layers = false → syncinfo.enabledLayerMask = r.enabledLayerMask) :
    (takeLayers syncinfo r).config = r.config ∧ (takeLayers syncinfo r).timerEnabled = r.timerEnabled ∧
      (takeLayers syncinfo r).enabledLayerMask = syncinfo.enabledLayerMask := by
  rw [takeLayers]
  split
  · exact ⟨rfl, rfl, rfl⟩
  · exact ⟨rfl, rfl, (h (Bool.eq_false_iff.mpr ‹_›)).symm⟩

/-- The mode comes with its timer, which a message without the flag of the timer leaves as it should be. -/
theorem takeMode_settings (hsync : Coherent b syncinfo)
    (hsame : syncinfo.changeFlags.mode = false →
      (syncinfo.config.enable, syncinfo.config.mode) = (r.config.enable, r.config.mode))
    (hoff : syncinfo.changeFlags.mode = true → syncinfo.config.enable = false → r.config.mode = syncinfo.config.mode)
    (htimer : syncinfo.changeFlags.timer = false → syncinfo.timerEnabled = r.timerEnabled) :
    (takeMode b syncinfo r).config = { r.config with
        enable := syncinfo.config.enable
        mode := syncinfo.config.mode } ∧
      (syncinfo.changeFlags.timer = false → syncinfo.timerEnabled = (takeMode b syncinfo r).timerEnabled) ∧
      (takeMode b syncinfo r).enabledLayerMask = r.enabledLayerMask := by
  rw [takeMode]
  cases hflag : syncinfo.changeFlags.mode with
  | false =>
    obtain ⟨henable, hmode⟩ := Prod.mk.injEq _ _ _ _ ▸ hsame hflag
    refine ⟨?_, htimer, rfl⟩
    rw [henable, hmode]
    rfl
  | true =>
    cases hon : syncinfo.config.enable with
    | true =>
      simp only [if_true]
      rw [modeHelper_eq (show (setEnable r true).config.enable = true from rfl), clampMode_of_bounds (hsync.mode hon)]
      refine ⟨rfl, ?_, rfl⟩
      intro hunflagged
      rcases hsync.timer hflag with h | ⟨h, _⟩
      · exact absurd (hunflagged.symm.trans h) Bool.false_ne_true
      · exact absurd (h.symm.trans hon) Bool.false_ne_true
    | false =>
      simp only [if_true, Bool.false_eq_true, if_false]
      rw [disable_eq]
      refine ⟨?_, ?_, rfl⟩
      · simp [savedVal, hoff hflag hon]
      · intro hunflagged
        rcases hsync.timer hflag with h | ⟨_, h⟩
        · exact absurd (hunflagged.symm.trans h) Bool.false_ne_true
        · exact h

theorem config_eq (henable : r.config.enable = syncinfo.config.enable) (hmode : r.config.mode = syncinfo.config.mode)
    (hhsvs : (syncinfo.config.hue, syncinfo.config.sat, syncinfo.config.val) =
      (r.config.hue, r.config.sat, r.config.val)) : r.config = syncinfo.config := by
  simp only [Prod.mk.injEq] at hhsvs
  exact RgbConfig.ext henable hmode hhsvs.1.symm hhsvs.2.1.symm hhsvs.2.2.symm

theorem takeHsvs_settings (henable : r.config.enable = syncinfo.config.enable)
    (hmode : r.config.mode = syncinfo.config.mode)
    (hsame : syncinfo.changeFlags.hsvs = false →
      (syncinfo.config.hue, syncinfo.config.sat, syncinfo.config.val) = (r.config.hue, r.config.sat, r.config.val))
    (h : TakesOver b syncinfo r) :
    (takeHsvs b syncinfo r).config = syncinfo.config ∧ (takeHsvs b syncinfo r).timerEnabled = r.timerEnabled ∧
      (takeHsvs b syncinfo r).enabledLayerMask = r.enabledLayerMask := by
  rw [takeHsvs]
  cases hflag : syncinfo.changeFlags.hsvs with
  | false => exact ⟨config_eq henable hmode (hsame hflag), rfl, rfl⟩
  | true =>
    rw [if_pos rfl]
    cases hon : syncinfo.config.enable with
    | false =>
      rw [sethsvHelper, henable, hon, if_neg Bool.false_ne_true]
      exact ⟨config_eq henable hmode (h.off hflag hon).symm, rfl, rfl⟩
    | true =>
      have hlit : r.config.enable = true := henable.trans hon
      by_cases hne : r.config.hue ≠ syncinfo.config.hue ∨ r.config.sat ≠ syncinfo.config.sat ∨
          r.config.val ≠ syncinfo.config.val
      · rw [sethsvHelper_other hlit hne, hmode]
        refine ⟨RgbConfig.ext henable hmode ?_ rfl ?_, rfl, rfl⟩
        · show (if _ then r.config.hue else syncinfo.config.hue) = _
          split
          · exact h.rainbow hflag ‹_›
          · rfl
        · show (if _ then r.config.val else syncinfo.config.val) = _
          split
          · exact h.breathing hflag ‹_›
          · rfl
      · simp only [not_or, not_not] at hne
        rw [← hne.1, ← hne.2.1, ← hne.2.2, sethsvHelper_own hlit]
        exact ⟨RgbConfig.ext henable hmode hne.1 hne.2.1 hne.2.2, rfl, rfl⟩

theorem takeTimer_settings (hsync : Coherent b syncinfo) (hmode : r.config.mode = syncinfo.config.mode)
    (hsame : syncinfo.changeFlags.timer = false → syncinfo.timerEnabled = r.timerEnabled) :
    (takeTimer b syncinfo r).config = r.config ∧ (takeTimer b syncinfo r).timerEnabled = syncinfo.timerEnabled ∧
      (takeTimer b syncinfo r).enabledLayerMask = r.enabledLayerMask := by
  rw [takeTimer]
  cases hflag : syncinfo.changeFlags.timer with
  | false => exact ⟨rfl, (hsame hflag).symm, rfl⟩
  | true =>
    cases hon : syncinfo.timerEnabled with
    | false => exact ⟨rfl, rfl, rfl⟩
    | true =>
      have hanimated := hsync.animated hon
      simp only [if_true, timerEnable, hmode, hanimated]
      exact ⟨rfl, rfl, rfl⟩

theorem updateSync_settings (hsync : Coherent b syncinfo) (h : TakesOver b syncinfo r)
    (hagree : (settings w).AgreeOff ((settings w).marked syncinfo) syncinfo r) :
    (settings w).value (updateSync b syncinfo r) = (settings w).value syncinfo := by
  simp only [Dirty.AgreeOff, Part.forall, settings] at hagree
  obtain ⟨hmode, hhsvs, htimer, hlayers⟩ := hagree
  obtain ⟨hconfig₁, htimer₁, hlayers₁⟩ := takeLayers_settings hlayers
  obtain ⟨hconfig₂, htimer₂, hlayers₂⟩ := takeMode_settings hsync
    (by rw [hconfig₁]; exact hmode) (by rw [hconfig₁]; exact h.mode) (by rw [htimer₁]; exact htimer)
  rw [hconfig₁] at hconfig₂
  have htakes : TakesOver b syncinfo (takeMode b syncinfo (takeLayers syncinfo r)) := by
    constructor
    · intro _ _
      rw [hconfig₂]
    · rw [hconfig₂]
      exact h.off
    · rw [hconfig₂]
      exact h.breathing
    · rw [hconfig₂]
      exact h.rainbow
  obtain ⟨hconfig₃, htimer₃, hlayers₃⟩ := takeHsvs_settings (by rw [hconfig₂]) (by rw [hconfig₂])
    (by rw [hconfig₂]; exact hhsvs) htakes
  rw [← htimer₃] at htimer₂
  obtain ⟨hconfig₄, htimer₄, hlayers₄⟩ := takeTimer_settings hsync (by rw [hconfig₃]) htimer₂
  funext part
  cases part with
  | mode => simp only [settings, updateSync, hconfig₄, hconfig₃]
  | hsvs => simp only [settings, updateSync, hconfig₄, hconfig₃]
  | timer => simp only [settings, updateSync, htimer₄]
  | layers => simp only [settings, updateSync, hlayers₄, hlayers₃, hlayers₂, hlayers₁]

theorem updateSync_clean (h : (settings w).Clean syncinfo) : updateSync b syncinfo r = r := by
  obtain ⟨hmode, hhsvs, htimer, hlayers⟩ := Part.forall.mp h
  simp only [settings] at hmode hhsvs htimer hlayers
  simp [updateSync, takeTimer, takeHsvs, takeMode, takeLayers, hmode, hhsvs, htimer, hlayers]

end Update

end Rgb

end Split
end VialQmk
