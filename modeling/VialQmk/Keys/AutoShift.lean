import VialQmk.Hid.SettingsSync
import VialQmk.Keys.ProcessAction

/-!
# Keys.AutoShift

Auto Shift (`process_auto_shift.c`) as the settings build it: repeat and auto repeat are asked for each key, and
Retro Shift is off. The keyboard's other features come in as changes of the modifiers from outside.

* `AutoShift.processAutoShift`, `AutoShift.matrixScan`: a key event and the scan between events.
* `Typing.step`: these, the calls of the settings, and what has become of each keycode.
-/

namespace VialQmk
namespace Keys

open Lib Hid Eeprom

def isRetro (keycode : Nat) : Bool := 0x2000 ≤ keycode && keycode ≤ 0x4FFF

def asOn : Nat := 0x7C13
def asOff : Nat := 0x7C14
def asTogg : Nat := 0x7C15

inductive ShiftSide where
  | left
  | right
deriving DecidableEq, Repr

def ShiftSide.modBit : ShiftSide → BitVec 8
  | left => 0x02
  | right => 0x20

def ShiftSide.keycode : ShiftSide → Nat
  | left => 0xE1
  | right => 0xE5

/-- The calls of `register_code16`, of `unregister_code16` and about cancelled shifts; with them, the key events: a
press that was consumed, and a release, which is either passed on or not. -/
inductive AutoShiftEvent where
  | consumed (keycode : Nat)
  | registered (keycode : Nat) (shifted : Bool)
  | unregistered (keycode : Nat)
  | released (keycode : Nat) (passed : Bool)
  | cancelled (side : ShiftSide)
  | restored (side : ShiftSide)
deriving DecidableEq, Repr

/-- `autoshift_flags` and the variables beside it, the settings, the modifiers, and the log, the newest first. -/
structure AutoShift where
  settings : SettingsState
  timeout : UInt16
  time : UInt16
  lastkey : Nat
  shiftStates : Nat → Bool
  enabled : Bool
  lastshifted : Bool
  inProgress : Bool
  cancelling : ShiftSide → Bool
  mods : BitVec 8
  weakMods : BitVec 8
  oneshotMods : BitVec 8
  capsWordOn : Bool
  log : List AutoShiftEvent

def qsAutoShift (settings : SettingsState) (bit : Nat) : Bool := (settings.qs 27).toNat.testBit bit

def qsAutoShiftEnable (settings : SettingsState) : Bool := qsAutoShift settings 0
def qsAutoShiftModifiers (settings : SettingsState) : Bool := qsAutoShift settings 1
def qsNoAutoShiftSpecial (settings : SettingsState) : Bool := qsAutoShift settings 2
def qsNoAutoShiftNumeric (settings : SettingsState) : Bool := qsAutoShift settings 3
def qsNoAutoShiftAlpha (settings : SettingsState) : Bool := qsAutoShift settings 4
def getAutoShiftRepeat (settings : SettingsState) : Bool := qsAutoShift settings 5
def getAutoShiftNoAutoRepeat (settings : SettingsState) : Bool := qsAutoShift settings 6

def getTappingTerm (settings : SettingsState) : UInt16 := beWord (settings.qs 25) (settings.qs 24)

def getHoldOnOtherKeyPress (settings : SettingsState) : Bool := !(settings.qs 29).toNat.testBit 1

def getAutoShiftedKey (settings : SettingsState) (keycode : Nat) : Bool :=
  -- `AUTO_SHIFT_ALPHA`, `AUTO_SHIFT_NUMERIC` and `AUTO_SHIFT_SPECIAL`
  if 0x04 ≤ keycode ∧ keycode ≤ 0x1D then !qsNoAutoShiftAlpha settings
  else if 0x1E ≤ keycode ∧ keycode ≤ 0x27 then !qsNoAutoShiftNumeric settings
  else if keycode = 0x2B ∨ (0x2D ≤ keycode ∧ keycode ≤ 0x38) ∨ keycode = 0x64 then !qsNoAutoShiftSpecial settings
  else false

namespace AutoShift

variable (s : AutoShift)

def logged (event : AutoShiftEvent) : AutoShift := { s with log := event :: s.log }

/-- `autoshift_press_user`, for a key that is not Retro Shift's. -/
def pressUser (keycode : Nat) (shifted : Bool) : AutoShift :=
  { s with
    weakMods := if shifted then s.weakMods ||| ShiftSide.left.modBit else s.weakMods
    log := .registered keycode shifted :: s.log }

def releaseUser (keycode : Nat) : AutoShift := s.logged (.unregistered keycode)

def setShiftState (keycode : Nat) (shifted : Bool) : AutoShift :=
  { s with shiftStates := Function.update s.shiftStates (keycode % 256) shifted }

def cancelShift (side : ShiftSide) : AutoShift :=
  if s.mods &&& side.modBit ≠ 0 then
    { s with
      cancelling := Function.update s.cancelling side true
      mods := s.mods &&& ~~~side.modBit
      log := .cancelled side :: s.log }
  else s

def restoreShift (side : ShiftSide) : AutoShift :=
  if s.cancelling side then
    { s with
      cancelling := Function.update s.cancelling side false
      mods := s.mods ||| side.modBit
      log := .restored side :: s.log }
  else s

def flushShift : AutoShift :=
  let s := { s with weakMods := if s.capsWordOn then s.weakMods else s.weakMods &&& ~~~ShiftSide.left.modBit }
  (s.restoreShift .left).restoreShift .right

def ModsPressed : Prop := (s.mods ||| s.oneshotMods) &&& ~~~ShiftSide.left.modBit ≠ 0
deriving Decidable

/-- A key that was tapped just before, now held for the host to repeat. -/
def Repeats (keycode : Nat) (now : UInt16) : Prop :=
  keycode = s.lastkey ∧ getAutoShiftRepeat s.settings = true ∧
    (s.lastshifted = false ∨ getAutoShiftNoAutoRepeat s.settings = true) ∧
    now - s.time < getTappingTerm s.settings
deriving Decidable

def pressWithMods (keycode : Nat) : AutoShift :=
  let s := { s with lastkey := kcNo }
  let s := (s.setShiftState keycode false).pressUser keycode false
  { s with oneshotMods := s.oneshotMods &&& ~~~ShiftSide.left.modBit }

def pressRepeat : AutoShift :=
  let s := (s.cancelShift .left).cancelShift .right
  s.pressUser s.lastkey s.lastshifted

def pressPending (keycode : Nat) (now : UInt16) : AutoShift :=
  { s with
    lastshifted := (s.mods ||| s.oneshotMods) &&& ShiftSide.left.modBit ≠ 0
    oneshotMods := s.oneshotMods &&& ~~~ShiftSide.left.modBit
    lastkey := keycode
    time := now
    inProgress := true }

/-- `autoshift_press`. The one-shot layer that it clears is not among the modifiers here. -/
def press (keycode : Nat) (now : UInt16) : AutoShift :=
  if s.ModsPressed ∧ qsAutoShiftModifiers s.settings = false then s.pressWithMods keycode
  else
    let s := if s.ModsPressed then { s with lastkey := kcNo } else s
    if s.Repeats keycode now then s.pressRepeat else s.pressPending keycode now

def evaluate (now : UInt16) : AutoShift :=
  let s := { s with
    inProgress := false
    lastshifted := s.lastshifted || decide (s.timeout ≤ now - s.time) }
  let s := s.setShiftState s.lastkey s.lastshifted
  let s := (s.cancelShift .left).cancelShift .right
  s.pressUser s.lastkey s.lastshifted

def finish (keycode : Nat) (now : UInt16) (matrixTrigger : Bool) : AutoShift :=
  if s.inProgress ∧ (keycode = s.lastkey ∨ keycode = kcNo) then
    let s := s.evaluate now
    if matrixTrigger ∧ getAutoShiftRepeat s.settings ∧ ¬ getAutoShiftNoAutoRepeat s.settings then s
    else { (s.releaseUser s.lastkey).flushShift with time := now }
  else
    let s := s.releaseUser keycode
    { (if keycode = s.lastkey then s.flushShift else s) with time := now }

def matrixScan (now : UInt16) : AutoShift :=
  if qsAutoShiftEnable s.settings ∧ s.inProgress ∧ s.timeout ≤ now - s.time then s.finish s.lastkey now true else s

def toggle : AutoShift := flushShift { s with enabled := !s.enabled }

def enable : AutoShift := { s with enabled := true }

def disable : AutoShift := flushShift { s with enabled := false }

/-- The keys of Auto Shift itself; those of the setup are not built. -/
def pressOwn (keycode : Nat) : AutoShift :=
  if keycode = asTogg then s.toggle
  else if keycode = asOn then s.enable
  else if keycode = asOff then s.disable
  else s

def processPress (keycode : Nat) (now : UInt16) : Bool × AutoShift :=
  let s := if s.inProgress then s.finish kcNo now false else s
  let s := s.pressOwn keycode
  if isRetro keycode then (true, { s with lastkey := kcNo })
  else if s.enabled = false then (true, s)
  else if getAutoShiftedKey s.settings keycode then (false, s.press keycode now)
  else (true, { s with lastkey := kcNo })

/-- The end of a shift key's press, which is not to be restored any more. -/
def releaseShift (side : ShiftSide) : AutoShift :=
  { s with cancelling := Function.update s.cancelling side false }

def processRelease (holdOnOther : Bool) (keycode : Nat) (now : UInt16) : Bool × AutoShift :=
  if keycode = ShiftSide.left.keycode then (true, s.releaseShift .left)
  else if keycode = ShiftSide.right.keycode then (true, s.releaseShift .right)
  else if isRetro keycode then
    (true, if holdOnOther ∧ s.inProgress ∧ getHoldOnOtherKeyPress s.settings then s.finish kcNo now false else s)
  else if s.enabled = false then (true, s)
  else if getAutoShiftedKey s.settings keycode then (false, s.finish keycode now false)
  else (true, s)

/-- Whether the event is passed on, and the state behind it. -/
def processAutoShift (holdOnOther : Bool) (keycode : Nat) (pressed : Bool) (now : UInt16) : Bool × AutoShift :=
  if qsAutoShiftEnable s.settings = false then (true, s)
  else if pressed then s.processPress keycode now
  else s.processRelease holdOnOther keycode now

end AutoShift

/-- Auto Shift, and the keys that it has consumed the presses of and that are still held. -/
structure Typing where
  auto : AutoShift
  held : List Nat

/-- `others` is what the rest of the keyboard does to the modifiers. -/
inductive TypingAction where
  | press (keycode : Nat) (now : UInt16)
  | release (keycode : Nat) (now : UInt16)
  | scan (now : UInt16)
  | settings (call : SettingsCall)
  | others (mods weakMods oneshotMods : BitVec 8) (capsWordOn : Bool)

/-- The build and the board: `HOLD_ON_OTHER_KEY_PRESS`, `AUTO_SHIFT_STARTUP_STATE`, and what the settings rest on. -/
structure TypingConfig where
  holdOnOther : Bool
  startupState : Bool
  dims : Dims
  defaults : SettingDefaults

/-- The callbacks of the settings run behind the start, a reset, and a successful set of setting 4. -/
def AutoShift.settingsCall (cfg : TypingConfig) (s : AutoShift) (call : SettingsCall) : AutoShift :=
  let settings := call.exec cfg.dims cfg.defaults s.settings
  let notifies : Bool := match call with
    | .set qsid ram setting maxsz =>
      qsid = 4 && (qmkSettingsSet cfg.dims cfg.defaults s.settings qsid ram setting maxsz).1 = 0
    | _ => true
  { s with
    settings := settings
    timeout := if notifies then beWord (settings.qs 1) (settings.qs 0) else s.timeout }

namespace Typing

variable (cfg : TypingConfig) (t : Typing)

def press (keycode : Nat) (now : UInt16) : Typing :=
  match t.auto.processAutoShift cfg.holdOnOther keycode true now with
  | (true, auto) => { t with auto := auto }
  | (false, auto) => ⟨auto.logged (.consumed keycode), keycode :: t.held⟩

def release (keycode : Nat) (now : UInt16) : Typing :=
  let (passed, auto) := t.auto.processAutoShift cfg.holdOnOther keycode false now
  ⟨auto.logged (.released keycode passed), t.held.erase keycode⟩

def step : TypingAction → Typing
  | .press keycode now => t.press cfg keycode now
  | .release keycode now => t.release cfg keycode now
  | .scan now => { t with auto := t.auto.matrixScan now }
  | .settings call => { t with auto := t.auto.settingsCall cfg call }
  | .others mods weakMods oneshotMods capsWordOn =>
    { t with auto := { t.auto with
      mods := mods, weakMods := weakMods, oneshotMods := oneshotMods, capsWordOn := capsWordOn } }

def start (settings : SettingsState) : Typing where
  auto :=
    { settings := settings, timeout := beWord (settings.qs 1) (settings.qs 0), time := 0, lastkey := kcNo
      shiftStates := fun _ => false, enabled := cfg.startupState, lastshifted := false, inProgress := false
      cancelling := fun _ => false, mods := 0, weakMods := 0, oneshotMods := 0, capsWordOn := false, log := [] }
  held := []

end Typing

end Keys
end VialQmk
