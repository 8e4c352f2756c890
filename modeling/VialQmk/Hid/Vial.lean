import VialQmk.Hid.QmkSettings

/-!
# Hid.Vial

The Vial half of the raw HID protocol (`vial.c`): the unlock handshake, encoders, QMK settings and
the dynamic entries. A message lies in RAM at address 0 and the reply overwrites it in place.

* `Firmware`: what is fixed at compile time. `VIAL_INSECURE` is not defined.
* `Board`: what a message can change.
* `HidInput`: one message, with what the handler reads from the hardware meanwhile.
-/

namespace VialQmk
namespace Hid

open Lib Eeprom

/-- `key_override_t` as `vial_get_key_override` fills it; `custom_action` and `context` are NULL,
`enabled` points to a constant `false` or is NULL. -/
structure KeyOverride where
  trigger : UInt16 := 0
  triggerMods : UInt8 := 0
  layers : UInt16 := 0
  negativeModMask : UInt8 := 0
  suppressedMods : UInt8 := 0
  replacement : UInt16 := 0
  options : UInt8 := 0
  enabled : Bool := true
  deriving DecidableEq, Repr

/-- A row of `key_combos_keys` with the output of its combo. -/
structure ComboTableRow where
  keys : Vector UInt16 5
  keycode : UInt16
  deriving DecidableEq, Repr

structure Firmware where
  geometry : Geometry
  settings : SettingDefaults
  keyboardUid : Vector UInt8 8
  keyboardDefinition : List UInt8
  /-- `VIAL_UNLOCK_COMBO_ROWS` and `VIAL_UNLOCK_COMBO_COLS`, pairwise. -/
  unlockCombo : List (UInt8 × UInt8)
  unlockCombo_lt : unlockCombo.length < 15
  /-- `VIA_EEPROM_ALLOW_RESET`. -/
  viaEepromAllowReset : Bool
  buildId : UInt32
  layoutOptionsDefault : UInt32
  macroCount : UInt8
  keycodeAtKeymapLocationRaw : UInt8 → UInt8 → UInt8 → UInt16
  keycodeAtEncodermapLocationRaw : UInt8 → UInt8 → Bool → UInt16

/-- A macro pad with one key, one layer and one entry in each Vial table. -/
def Firmware.onePad : Firmware where
  geometry :=
    { matrixRows := 1, matrixCols := 1, layerCount := 1, numEncoders := 0, tapDanceEntries := 1
      comboEntries := 1, keyOverrideEntries := 1, kbDataSize := 0, userDataSize := 0
      layoutOptionsSize := 1, customConfigSize := 0, maxAddr := 1023
      fits := by decide, maxAddr_le := kibibyte_le }
  settings :=
    { mousekey := false, autoShiftTimeout := 175, oneshotTapToggle := 5, oneshotTimeout := 5000
      mousekeys := .replicate 9 0, comboTerm := 50, tappingTerm := 200, tapCodeDelay := 0
      tapHoldCapsDelay := 80, tappingToggle := 5 }
  keyboardUid := .replicate 8 0
  keyboardDefinition := []
  unlockCombo := [(0, 0)]
  unlockCombo_lt := by decide
  viaEepromAllowReset := false
  buildId := 0
  layoutOptionsDefault := 0
  macroCount := 16
  keycodeAtKeymapLocationRaw _ _ _ := 0
  keycodeAtEncodermapLocationRaw _ _ _ := 0

abbrev Firmware.dims (f : Firmware) : Dims := f.geometry.toDims

structure Board extends SettingsState where
  vialUnlocked : Bool
  vialUnlockInProgress : Bool
  vialUnlockCounter : Int
  vialUnlockTimer : UInt16
  keyCombos : Nat → ComboTableRow
  vialKeyOverrides : Nat → KeyOverride
  /-- `bootloader_jump` was called. -/
  bootloaderJumped : Bool

def Board.blank : Board where
  eeprom _ := 0
  qs _ := 0
  keymapConfig := 0
  vialUnlocked := false
  vialUnlockInProgress := false
  vialUnlockCounter := 0
  vialUnlockTimer := 0
  keyCombos _ := ⟨.replicate 5 0, 0⟩
  vialKeyOverrides _ := {}
  bootloaderJumped := false

structure HidInput where
  /-- The message, and beyond it whatever memory follows it. -/
  data : Ram
  length : UInt8
  /-- The rows of the physical matrix. -/
  matrix : UInt8 → UInt32
  /-- The timer as `timer_elapsed` reads it. -/
  timerElapsedRead : UInt16
  /-- The timer as `timer_read` reads it. -/
  timerRead : UInt16
  timerRead32 : UInt32

/-- A message of 32 bytes, the last ones zero, that arrives with every key down at time `t`. -/
def HidInput.ofBytes (bytes : List UInt8) (t : UInt16) : HidInput where
  data a := bytes.getD a 0
  length := 32
  matrix _ := 0xFFFFFFFF
  timerElapsedRead := t
  timerRead := t
  timerRead32 := t.toUInt32

def vialRawEpsize : UInt8 := 32

def vialUnlockCounterMax : Int := 50

def HidInput.matrixIsOn (i : HidInput) (row col : UInt8) : Bool :=
  (i.matrix row).toNat.testBit col.toNat

def HidInput.timerElapsed (i : HidInput) (last : UInt16) : UInt16 := i.timerElapsedRead - last

inductive VialCmd where
  | getKeyboardId | getSize | getDef | getEncoder | setEncoder | getUnlockStatus | unlockStart
  | unlockPoll | lock | qmkSettingsQuery | qmkSettingsGet | qmkSettingsSet | qmkSettingsReset
  | dynamicEntryOp
  deriving DecidableEq, Repr

def VialCmd.ofByte (b : UInt8) : Option VialCmd :=
  match b.toNat with
  | 0x00 => some .getKeyboardId
  | 0x01 => some .getSize
  | 0x02 => some .getDef
  | 0x03 => some .getEncoder
  | 0x04 => some .setEncoder
  | 0x05 => some .getUnlockStatus
  | 0x06 => some .unlockStart
  | 0x07 => some .unlockPoll
  | 0x08 => some .lock
  | 0x09 => some .qmkSettingsQuery
  | 0x0A => some .qmkSettingsGet
  | 0x0B => some .qmkSettingsSet
  | 0x0C => some .qmkSettingsReset
  | 0x0D => some .dynamicEntryOp
  | _ => none

inductive DynamicEntryOp where
  | getNumberOfEntries | tapDanceGet | tapDanceSet | comboGet | comboSet | keyOverrideGet
  | keyOverrideSet
  deriving DecidableEq, Repr

def DynamicEntryOp.ofByte (b : UInt8) : Option DynamicEntryOp :=
  match b.toNat with
  | 0x00 => some .getNumberOfEntries
  | 0x01 => some .tapDanceGet
  | 0x02 => some .tapDanceSet
  | 0x03 => some .comboGet
  | 0x04 => some .comboSet
  | 0x05 => some .keyOverrideGet
  | 0x06 => some .keyOverrideSet
  | _ => none

def Board.vialKeycodeFirewall (b : Board) (keycode : UInt16) : UInt16 :=
  if keycode = qkBoot ∧ b.vialUnlocked = false then 0 else keycode

def reloadCombo (f : Firmware) (b : Board) : Board :=
  { b with
    keyCombos := fun i =>
      let r := dynamicKeymapGetCombo f.dims b.eeprom i.toUInt8 default
      if i < f.dims.comboEntries ∧ r.1 = 0 then ⟨r.2.input.push 0, r.2.output⟩
      else ⟨Vector.replicate 5 0, 0⟩ }

/-- The option bits `vial_get_key_override` copies one by one. -/
def koOptions (opt : UInt8) : UInt8 :=
  [0x01, 0x02, 0x04, 0x08, 0x10, 0x20].foldl
    (fun options bit => if opt &&& bit ≠ 0 then options ||| bit else options) 0

def vialGetKeyOverride (f : Firmware) (m : EepromMem) (index : UInt8) (out : KeyOverride) :
    Int × KeyOverride :=
  let r := dynamicKeymapGetKeyOverride f.dims m index default
  if r.1 ≠ 0 then (r.1, out)
  else
    let entry := r.2
    (0,
      { trigger := entry.trigger, triggerMods := entry.triggerMods, layers := entry.layers
        negativeModMask := entry.negativeModMask, suppressedMods := entry.suppressedMods
        replacement := entry.replacement, options := koOptions entry.options
        enabled := entry.options &&& 0x80 ≠ 0 })

def reloadKeyOverride (f : Firmware) (b : Board) : Board :=
  { b with
    vialKeyOverrides := fun i =>
      if i < f.dims.keyOverrideEntries then
        (vialGetKeyOverride f b.eeprom i.toUInt8 (b.vialKeyOverrides i)).2
      else b.vialKeyOverrides i }

def byteOfInt (v : Int) : UInt8 := UInt8.ofInt v

def le32 (v : UInt32) : List UInt8 :=
  [v.toUInt8, (v >>> 8).toUInt8, (v >>> 16).toUInt8, (v >>> 24).toUInt8]

def vialGetKeyboardId (f : Firmware) (msg : Ram) (length : UInt8) : Ram :=
  let msg := msg.writeBlock 0 (List.replicate length.toNat 0)
  -- `VIAL_PROTOCOL_VERSION` is 6
  (msg.writeBlock 0 (le32 6)).writeBlock 4 f.keyboardUid.toList

def vialGetDef (f : Firmware) (msg : Ram) : Ram :=
  let page := (msg 2).toNat + (msg 3).toNat * 256
  let start := page * 32
  let stop := start + 32
  let sz := f.keyboardDefinition.length
  if stop < start ∨ start ≥ sz then msg
  else
    let stop := if stop > sz then sz else stop
    msg.writeBlock 0 ((f.keyboardDefinition.drop start).take (stop - start))

def vialGetEncoder (f : Firmware) (b : Board) (msg : Ram) : Ram :=
  let layer := msg 2
  let idx := msg 3
  let keycode := dynamicKeymapGetEncoder f.dims b.eeprom layer idx false
  let msg := msg.writeBlock 0 [hiByte keycode, loByte keycode]
  let keycode := dynamicKeymapGetEncoder f.dims b.eeprom layer idx true
  msg.writeBlock 2 [hiByte keycode, loByte keycode]

def vialSetEncoder (f : Firmware) (b : Board) (msg : Ram) : Board :=
  { b with
    eeprom := dynamicKeymapSetEncoder f.dims b.eeprom (msg 2) (msg 3) (msg 4 ≠ 0)
      (b.vialKeycodeFirewall (beWord (msg 5) (msg 6))) }

def vialGetUnlockStatus (f : Firmware) (b : Board) (msg : Ram) (length : UInt8) : Ram :=
  let msg := msg.writeBlock 0 (List.replicate length.toNat 0xFF)
  let msg := msg.writeBlock 0 [b.vialUnlocked.toUInt8, b.vialUnlockInProgress.toUInt8]
  msg.writeBlock 2 (f.unlockCombo.flatMap fun key => [key.1, key.2])

def vialUnlockStart (b : Board) (i : HidInput) : Board :=
  { b with
    vialUnlockInProgress := true
    vialUnlockCounter := vialUnlockCounterMax
    vialUnlockTimer := i.timerRead }

def Firmware.holding (f : Firmware) (i : HidInput) : Bool :=
  f.unlockCombo.all fun key => i.matrixIsOn key.1 key.2

def vialUnlockPoll (f : Firmware) (b : Board) (i : HidInput) : Board :=
  if b.vialUnlockInProgress then
    if i.timerElapsed b.vialUnlockTimer > 100 ∧ f.holding i = true then
      let b := { b with
        vialUnlockTimer := i.timerRead
        vialUnlockCounter := b.vialUnlockCounter - 1 }
      if b.vialUnlockCounter = 0 then { b with vialUnlockInProgress := false, vialUnlocked := true }
      else b
    else { b with vialUnlockCounter := vialUnlockCounterMax }
  else b

def vialUnlockPollReply (b : Board) (msg : Ram) : Ram :=
  msg.writeBlock 0
    [b.vialUnlocked.toUInt8, b.vialUnlockInProgress.toUInt8, byteOfInt b.vialUnlockCounter]

/-- `dynamic_vial_*_get`: the status and the entry, zeroed before the read. -/
def vialEntryReply {α : Type} (c : Codec UInt8 α) (r : Int × α) (msg : Ram) : Ram :=
  (msg.writeBlock 0 [byteOfInt r.1]).writeBlock 1 (c.enc r.2)

def Board.firewallTapDance (b : Board) (td : VialTapDanceEntry) : VialTapDanceEntry :=
  { td with
    onTap := b.vialKeycodeFirewall td.onTap
    onHold := b.vialKeycodeFirewall td.onHold
    onDoubleTap := b.vialKeycodeFirewall td.onDoubleTap
    onTapHold := b.vialKeycodeFirewall td.onTapHold }

def Board.firewallCombo (b : Board) (entry : VialComboEntry) : VialComboEntry :=
  { entry with output := b.vialKeycodeFirewall entry.output }

def Board.firewallKeyOverride (b : Board) (entry : VialKeyOverrideEntry) : VialKeyOverrideEntry :=
  { entry with replacement := b.vialKeycodeFirewall entry.replacement }

def vialDynamicEntryOp (f : Firmware) (b : Board) (msg : Ram) (length : UInt8) : Board × Ram :=
  let idx := msg 3
  match DynamicEntryOp.ofByte (msg 2) with
  | some .getNumberOfEntries =>
    (b, (msg.writeBlock 0 (List.replicate length.toNat 0)).writeBlock 0
      [f.dims.tapDanceEntries.toUInt8, f.dims.comboEntries.toUInt8,
        f.dims.keyOverrideEntries.toUInt8])
  | some .tapDanceGet =>
    (b, vialEntryReply VialTapDanceEntry.codec
      (dynamicKeymapGetTapDance f.dims b.eeprom idx default) msg)
  | some .tapDanceSet =>
    let td := b.firewallTapDance (VialTapDanceEntry.codec.dec (msg.readBlock 4 10))
    let r := dynamicKeymapSetTapDance f.dims b.eeprom idx td
    -- `reload_tap_dance` stores the same handlers again
    ({ b with eeprom := r.2 }, msg.writeBlock 0 [byteOfInt r.1])
  | some .comboGet =>
    (b, vialEntryReply VialComboEntry.codec
      (dynamicKeymapGetCombo f.dims b.eeprom idx default) msg)
  | some .comboSet =>
    let entry := b.firewallCombo (VialComboEntry.codec.dec (msg.readBlock 4 10))
    let r := dynamicKeymapSetCombo f.dims b.eeprom idx entry
    (reloadCombo f { b with eeprom := r.2 }, msg.writeBlock 0 [byteOfInt r.1])
  | some .keyOverrideGet =>
    (b, vialEntryReply VialKeyOverrideEntry.codec
      (dynamicKeymapGetKeyOverride f.dims b.eeprom idx default) msg)
  | some .keyOverrideSet =>
    let entry := b.firewallKeyOverride (VialKeyOverrideEntry.codec.dec (msg.readBlock 4 10))
    let r := dynamicKeymapSetKeyOverride f.dims b.eeprom idx entry
    (reloadKeyOverride f { b with eeprom := r.2 }, msg.writeBlock 0 [byteOfInt r.1])
  | none => (b, msg)

def vialHandleCmd (f : Firmware) (b : Board) (i : HidInput) (msg : Ram) (length : UInt8) :
    Board × Ram :=
  if length ≠ vialRawEpsize then (b, msg)
  else
    match VialCmd.ofByte (msg 1) with
    | some .getKeyboardId => (b, vialGetKeyboardId f msg length)
    | some .getSize => (b, msg.writeBlock 0 (le32 f.keyboardDefinition.length.toUInt32))
    | some .getDef => (b, vialGetDef f msg)
    | some .getEncoder => (b, vialGetEncoder f b msg)
    | some .setEncoder => (vialSetEncoder f b msg, msg)
    | some .getUnlockStatus => (b, vialGetUnlockStatus f b msg length)
    | some .unlockStart => (vialUnlockStart b i, msg)
    | some .unlockPoll =>
      let b := vialUnlockPoll f b i
      (b, vialUnlockPollReply b msg)
    | some .lock => ({ b with vialUnlocked := false }, msg)
    | some .qmkSettingsQuery =>
      (b, qmkSettingsQuery f.settings (beWord (msg 3) (msg 2)) msg 0 length.toNat)
    | some .qmkSettingsGet =>
      let r := qmkSettingsGet f.settings b.toSettingsState (beWord (msg 3) (msg 2)) msg 1
        (length.toNat - 1)
      (b, r.2.writeBlock 0 [byteOfInt r.1])
    | some .qmkSettingsSet =>
      let r := qmkSettingsSet f.dims f.settings b.toSettingsState (beWord (msg 3) (msg 2)) msg 4
        (length.toNat - 4)
      ({ b with toSettingsState := r.2 }, msg.writeBlock 0 [byteOfInt r.1])
    | some .qmkSettingsReset =>
      ({ b with toSettingsState := qmkSettingsReset f.dims f.settings b.toSettingsState }, msg)
    | some .dynamicEntryOp => vialDynamicEntryOp f b msg length
    | none => (b, msg)

end Hid
end VialQmk
