import VialQmk.Keys.LayerLock
import VialQmk.Keys.OneshotModsRuns
import VialQmk.Keys.Tapping

/-!
# Keys.CapsWord

Caps Word: `caps_word.c` and `process_caps_word.c`, in front of what `process_action` does with the modifiers.

* `processCapsWord`: what Caps Word makes of a record, and whether the record goes on.
* `CapsTyping`: a run, with the keys that are held in it and the one-shot modifiers that the last report may have.
-/

namespace VialQmk
namespace Keys

def kcLsft : Nat := 0xE1
def kcRsft : Nat := 0xE5
def kcRalt : Nat := 0xE6
def qkCapsWordToggle : Nat := 0x7C73

def modLsft : Nat := 0x02
def modRsft : Nat := 0x12
def modRalt : Nat := 0x14

def modMaskShift : Mods := 0x22

def osm (mod : Nat) : Nat := 0x52A0 ||| mod

def rsft (keycode : Nat) : Nat := 0x1200 ||| keycode

def IsMods (keycode : Nat) : Prop := 0x0100 ≤ keycode ∧ keycode ≤ 0x1FFF
deriving Decidable
def IsModTap (keycode : Nat) : Prop := 0x2000 ≤ keycode ∧ keycode ≤ 0x3FFF
deriving Decidable
def IsTo (keycode : Nat) : Prop := 0x5200 ≤ keycode ∧ keycode ≤ 0x521F
deriving Decidable
def IsToggleLayer (keycode : Nat) : Prop := 0x5260 ≤ keycode ∧ keycode ≤ 0x527F
deriving Decidable
def IsOneShotLayer (keycode : Nat) : Prop := 0x5280 ≤ keycode ∧ keycode ≤ 0x529F
deriving Decidable
def IsOneShotMod (keycode : Nat) : Prop := 0x52A0 ≤ keycode ∧ keycode ≤ 0x52BF
deriving Decidable
def IsSwapHands (keycode : Nat) : Prop := 0x5600 ≤ keycode ∧ keycode ≤ 0x56FF
deriving Decidable
def IsSwapHandsKeycode (keycode : Nat) : Prop := 0x56F0 ≤ keycode ∧ keycode ≤ 0x56F6
deriving Decidable
def IsTriLayer (keycode : Nat) : Prop := 0x7C77 ≤ keycode ∧ keycode ≤ 0x7C78
deriving Decidable

def packedMods (keycode : Nat) : Nat := keycode / 256 % 32

/-- `action_for_keycode`, on the keys that have a part in the report. The right modifiers have a kind of their own,
which is the bit above the left ones. -/
def actionForKeycode (f : MagicFlags) (keycode : Nat) : Nat :=
  let keycode := keycodeConfig f keycode
  if IsBasicKeycode keycode ∨ IsModifierKeycode keycode then actionCode actMods keycode
  else if IsMods keycode then
    actionCode actMods (modConfig f (packedMods keycode) <<< 8 ||| keycodeConfig f (keycode % 256))
  else if IsLayerTap keycode then layerTapAction (layerTapLayer keycode) (keycodeConfig f (keycode % 256))
  else if IsOneShotMod keycode then actionCode actLmodsTap (modConfig f (keycode % 32) <<< 8 ||| modsOneshot)
  else if IsLayerMod keycode then layerModAction (layerModLayer keycode) (modConfig f (keycode % 32))
  else if IsModTap keycode then
    actionCode actLmodsTap (modConfig f (packedMods keycode) <<< 8 ||| keycodeConfig f (keycode % 256))
  else 0

namespace ModsState

variable (s : ModsState)

def clearMods : ModsState := { s with realMods := 0 }
def clearWeakMods : ModsState := { s with weakMods := 0 }
def setWeakMods (mods : Mods) : ModsState := { s with weakMods := mods }

def unregisterWeakMods (set : ModsSettings) (now : UInt16) (mods : Mods) : ModsState :=
  if mods ≠ 0 then (s.delWeakMods mods).sendKeyboardReport set now else s

end ModsState

def TimerExpired (current future : UInt16) : Prop := current - future < 0xFFFF / 2
deriving Decidable

/-- `CAPS_WORD_INVERT_ON_SHIFT`, `BOTH_SHIFTS_TURNS_ON_CAPS_WORD`, `DOUBLE_TAP_SHIFT_TURNS_ON_CAPS_WORD` and
`CAPS_WORD_IDLE_TIMEOUT`, with `GET_TAPPING_TERM` and the flags of `keymap_config`. -/
structure CapsWordConfig extends ModsSettings where
  invertOnShift : Bool
  bothShiftsTurnsOn : Bool
  doubleTapShiftTurnsOn : Bool
  idleTimeout : UInt16
  tappingTerm : Nat → UInt16
  magic : MagicFlags

/-- The statics of Caps Word, and those of `action_util.c`. `tapped` and `timer` belong to the double tap. -/
structure CapsWord where
  mods : ModsState
  capsWordActive : Bool
  idleTimer : UInt16
  heldMods : Mods
  tapped : Bool
  timer : UInt16

/-- What the `switch` of `process_caps_word` makes of a press: it is left alone, it ends Caps Word, or
`caps_word_press_user` is asked about a keycode. -/
inductive CapsWordPress where
  | ignored
  | ends
  | asks (keycode : Nat)

def CapsWordPress.ofKeycode (cfg : CapsWordConfig) (keycode tapCount : Nat) : CapsWordPress :=
  if IsMomentary keycode ∨ IsTo keycode ∨ IsToggleLayer keycode ∨ IsLayerTapToggle keycode ∨ IsOneShotLayer keycode ∨
      IsTriLayer keycode ∨ keycode = kcRalt ∨ keycode = osm modRalt then .ignored
  else if IsModTap keycode then
    if tapCount = 0 then
      if ¬ cfg.invertOnShift ∧ packedMods keycode = modLsft then .asks kcLsft
      else if ¬ cfg.invertOnShift ∧ packedMods keycode = modRsft then .asks kcRsft
      else if packedMods keycode = modRsft ||| modRalt then .asks (rsft kcRalt)
      else if packedMods keycode = modRalt then .ignored
      else .ends
    else .asks (keycode % 256)
  else if IsLayerTap keycode then (if tapCount = 0 then .ignored else .asks (keycode % 256))
  else if cfg.swapHands ∧ IsSwapHands keycode then
    if IsSwapHandsKeycode keycode ∨ tapCount = 0 then .ignored else .asks (keycode % 256)
  else .asks keycode

/-- Letters and `KC_MINS` go on with a shift; digits, `KC_BSPC`, `KC_DEL` and `KC_UNDS` without. -/
def capsWordPressUser (keycode : Nat) (m : ModsState) : Bool × ModsState :=
  if (0x04 ≤ keycode ∧ keycode ≤ 0x1D) ∨ keycode = 0x2D then (true, m.addWeakMods (modBit kcLsft))
  else if (0x1E ≤ keycode ∧ keycode ≤ 0x27) ∨ keycode = 0x2A ∨ keycode = 0x4C ∨ keycode = 0x022D then (true, m)
  else (false, m)

def shiftKeycode (keycode tapCount : Nat) : Nat :=
  if keycode = osm modLsft then kcLsft
  else if keycode = osm modRsft then kcRsft
  else if IsModTap keycode ∧ tapCount = 0 ∧ packedMods keycode = modLsft then kcLsft
  else if IsModTap keycode ∧ tapCount = 0 ∧ packedMods keycode = modRsft then kcRsft
  else keycode

namespace CapsWord

variable (cfg : CapsWordConfig) (now : UInt16) (s : CapsWord)

def resetIdleTimer : CapsWord := if 0 < cfg.idleTimeout then { s with idleTimer := now + cfg.idleTimeout } else s

def capsWordOn : CapsWord :=
  if s.capsWordActive then s
  else
    let s := { s with mods := s.mods.clearMods.clearOneshotMods }.resetIdleTimer cfg now
    { s with capsWordActive := true }

def capsWordOff : CapsWord :=
  if s.capsWordActive then
    { s with mods := s.mods.unregisterWeakMods cfg.toModsSettings now modMaskShift, capsWordActive := false }
  else s

def capsWordToggle : CapsWord := if s.capsWordActive then s.capsWordOff cfg now else s.capsWordOn cfg now

def capsWordTask : CapsWord :=
  if 0 < cfg.idleTimeout ∧ s.capsWordActive ∧ TimerExpired now s.idleTimer then s.capsWordOff cfg now else s

def handleShift (keycode : Nat) (record : Record) : Bool × CapsWord :=
  let keycode := shiftKeycode keycode record.tap.count
  if keycode = kcLsft ∨ keycode = kcRsft then
    let mod := modBit keycode
    if s.capsWordActive then
      (false, { s with heldMods := if record.event.pressed then s.heldMods ||| mod else s.heldMods &&& ~~~mod })
    else if s.heldMods &&& mod ≠ 0 then
      (record.event.pressed, { s with heldMods := s.heldMods &&& ~~~mod, mods := s.mods.delMods mod })
    else (true, s)
  else (true, s)

/-- While Caps Word is off, both shifts turn it on, and so does a double tap. -/
def processOff (keycode : Nat) (record : Record) (mods : Mods) : CapsWord :=
  let s := if cfg.bothShiftsTurnsOn ∧ mods = modMaskShift then s.capsWordOn cfg now else s
  if cfg.doubleTapShiftTurnsOn ∧ record.event.pressed then
    if keycode = kcLsft ∨ keycode = osm modLsft then
      let s := if s.tapped ∧ ¬ TimerExpired record.event.time s.timer then s.capsWordOn cfg now else s
      { s with tapped := true, timer := record.event.time + cfg.tappingTerm keycode }
    else { s with tapped := false }
  else s

/-- The end of the word. Shifts that are held are real ones again. -/
def endWord : CapsWord :=
  let s := s.capsWordOff cfg now
  if cfg.invertOnShift then { s with mods := s.mods.addMods s.heldMods } else s

def processPress (keycode : Nat) (record : Record) (mods : Mods) : CapsWord :=
  if mods &&& ~~~(modMaskShift ||| modBit kcRalt) = 0 then
    match CapsWordPress.ofKeycode cfg keycode record.tap.count with
    | .ignored => s
    | .ends => s.endWord cfg now
    | .asks keycode =>
      let asked := capsWordPressUser keycode s.mods.clearWeakMods
      if asked.1 then
        let m :=
          if cfg.invertOnShift ∧ s.heldMods ≠ 0 then asked.2.setWeakMods (asked.2.weakMods ^^^ modBit kcLsft)
          else asked.2
        { s with mods := m.sendKeyboardReport cfg.toModsSettings now }
      else { s with mods := asked.2 }.endWord cfg now
  else s.endWord cfg now

def processCapsWord (keycode : Nat) (record : Record) : Bool × CapsWord :=
  if keycode = qkCapsWordToggle then (false, if record.event.pressed then s.capsWordToggle cfg now else s)
  else
    let shift := if cfg.invertOnShift then s.handleShift keycode record else (true, s)
    if shift.1 then
      let s := shift.2
      let mods := s.mods.realMods ||| s.mods.oneshotMods
      if s.capsWordActive then
        let s := s.resetIdleTimer cfg now
        (true, if record.event.pressed then s.processPress cfg now keycode record mods else s)
      else (true, s.processOff cfg now keycode record mods)
    else (false, shift.2)

/-- `process_record`: what Caps Word lets through comes to `process_action`. -/
def processRecord (keycode : Nat) (record : Record) : CapsWord :=
  let t := s.processCapsWord cfg now keycode record
  if t.1 then
    { t.2 with
      mods := t.2.mods.processAction cfg.toModsSettings now (actionForKeycode cfg.magic keycode) record.event.pressed
        record.tap.count }
  else t.2

end CapsWord

/-- The call of `action_exec` for an event, a record that comes to `process_record`, or a call of `caps_word_task`. A
key that waits for its tapping term comes later, as the tap or the hold that was made of it. -/
inductive CapsWordEvent where
  | exec (pressed : Bool) (now : UInt16)
  | record (keycode : Nat) (record : Record) (now : UInt16)
  | task (now : UInt16)

def CapsWord.step (cfg : CapsWordConfig) (s : CapsWord) : CapsWordEvent → CapsWord
  | .exec pressed now => { s with mods := s.mods.exec cfg.toModsSettings now pressed }
  | .record keycode record now => s.processRecord cfg now keycode record
  | .task now => s.capsWordTask cfg now

/-- A key that is down, with the keycode and the number of taps of its press. -/
structure HeldKey where
  key : KeyPos
  keycode : Nat
  tapCount : Nat
deriving DecidableEq

def HeldKey.ofRecord (keycode : Nat) (record : Record) : HeldKey := ⟨record.event.key, keycode, record.tap.count⟩

def HeldKey.action (cfg : CapsWordConfig) (k : HeldKey) : ReportAction :=
  .ofAction cfg.toModsSettings (actionForKeycode cfg.magic k.keycode) k.tapCount

def HeldKey.shiftMod (k : HeldKey) : Mods :=
  let keycode := shiftKeycode k.keycode k.tapCount
  if keycode = kcLsft ∨ keycode = kcRsft then modBit keycode else 0

/-- The modifiers of a one-shot key. Without a gui key `mod_config` makes a left shift of the right one, and
`handle_shift` does not. -/
def HeldKey.oneshotMods (cfg : CapsWordConfig) (k : HeldKey) : Mods :=
  match k.action cfg with
  | .oneshot mods => mods ||| k.shiftMod
  | _ => 0

def CapsWordEvent.hold (held : List HeldKey) : CapsWordEvent → List HeldKey
  | .record keycode r _ => if r.event.pressed then .ofRecord keycode r :: held else held.erase (.ofRecord keycode r)
  | .exec _ _ | .task _ => held

def CapsWordEvent.oneshotMods (cfg : CapsWordConfig) : CapsWordEvent → Mods
  | .record keycode r _ => (HeldKey.ofRecord keycode r).oneshotMods cfg
  | .exec _ _ | .task _ => 0

/-- A run so far: the keys that are held, and the one-shot modifiers that were to come, or whose key came, when the last
report went out or since. -/
structure CapsTyping where
  state : CapsWord
  held : List HeldKey
  oneshot : Mods

def CapsTyping.step (cfg : CapsWordConfig) (t : CapsTyping) (e : CapsWordEvent) : CapsTyping :=
  let state := t.state.step cfg e
  { state := state
    held := e.hold t.held
    oneshot :=
      (if state.mods.out = t.state.mods.out then t.oneshot else 0) ||| t.state.mods.oneshotMods ||| e.oneshotMods cfg }

def CapsTyping.run (cfg : CapsWordConfig) (t : CapsTyping) (events : List CapsWordEvent) : CapsTyping :=
  events.foldl (step cfg) t

def CapsTyping.start : CapsTyping where
  state :=
    { mods := .start
      capsWordActive := false
      idleTimer := 0
      heldMods := 0
      tapped := false
      timer := 0 }
  held := []
  oneshot := 0

end Keys
end VialQmk
