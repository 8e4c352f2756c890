import VialQmk.Hid.Vial

/-!
# Hid.Via

`via.c`: the raw HID entry point, its in-progress filter, and the reset commands. The build has none
of the lighting features, and `raw_hid_receive_kb` is the weak default.

`Handled` lists what one message can do to the board, one constructor for each command that changes
it; `rawHidReceive_handled` is the inversion every invariant is proved from.
-/

namespace VialQmk
namespace Hid

open Lib Eeprom

inductive ViaCmd where
  | getProtocolVersion | getKeyboardValue | setKeyboardValue | dynamicKeymapGetKeycode
  | dynamicKeymapSetKeycode | dynamicKeymapReset | lightingSetValue | lightingGetValue
  | lightingSave | eepromReset | bootloaderJump | dynamicKeymapMacroGetCount
  | dynamicKeymapMacroGetBufferSize | dynamicKeymapMacroGetBuffer | dynamicKeymapMacroSetBuffer
  | dynamicKeymapMacroReset | dynamicKeymapGetLayerCount | dynamicKeymapGetBuffer
  | dynamicKeymapSetBuffer | vialPrefix
  deriving DecidableEq, Repr

def ViaCmd.ofByte (b : UInt8) : Option ViaCmd :=
  match b.toNat with
  | 0x01 => some .getProtocolVersion
  | 0x02 => some .getKeyboardValue
  | 0x03 => some .setKeyboardValue
  | 0x04 => some .dynamicKeymapGetKeycode
  | 0x05 => some .dynamicKeymapSetKeycode
  | 0x06 => some .dynamicKeymapReset
  | 0x07 => some .lightingSetValue
  | 0x08 => some .lightingGetValue
  | 0x09 => some .lightingSave
  | 0x0A => some .eepromReset
  | 0x0B => some .bootloaderJump
  | 0x0C => some .dynamicKeymapMacroGetCount
  | 0x0D => some .dynamicKeymapMacroGetBufferSize
  | 0x0E => some .dynamicKeymapMacroGetBuffer
  | 0x0F => some .dynamicKeymapMacroSetBuffer
  | 0x10 => some .dynamicKeymapMacroReset
  | 0x11 => some .dynamicKeymapGetLayerCount
  | 0x12 => some .dynamicKeymapGetBuffer
  | 0x13 => some .dynamicKeymapSetBuffer
  | 0xFE => some .vialPrefix
  | _ => none

def viaEepromSetValid (f : Firmware) (valid : Bool) (m : EepromMem) : EepromMem :=
  let magic (shift : UInt32) : UInt8 := if valid then (f.buildId >>> shift).toUInt8 else 0xFF
  m.writeBlock f.dims.viaEepromMagicAddr [magic 0, magic 8, magic 16]

def viaGetLayoutOptions (d : Dims) (m : EepromMem) : UInt32 :=
  (List.range d.layoutOptionsSize).foldl
    (fun value k => (value <<< 8) ||| (m (d.viaEepromLayoutOptionsAddr + k)).toUInt32) 0

/-- The loop of `via_set_layout_options` with `n` bytes to go, least significant byte last. -/
def layoutOptionsLoop (base : Nat) : Nat → UInt32 → EepromMem → EepromMem
  | 0, _, m => m
  | n + 1, value, m =>
    layoutOptionsLoop base n (value >>> 8) (eepromUpdateByte m (base + n) value.toUInt8)

def viaSetLayoutOptions (d : Dims) (value : UInt32) (m : EepromMem) : EepromMem :=
  layoutOptionsLoop d.viaEepromLayoutOptionsAddr d.layoutOptionsSize value m

def forN (n : Nat) (body : Nat → EepromMem → EepromMem) (m : EepromMem) : EepromMem :=
  (List.range n).foldl (fun m k => body k m) m

/-- One layer of the keymap and of the encoder map, back to what is in flash. -/
def keymapResetLayer (f : Firmware) (layer : Nat) (m : EepromMem) : EepromMem :=
  let m := forN f.dims.matrixRows (fun row => forN f.dims.matrixCols fun column m =>
    dynamicKeymapSetKeycode f.dims m layer.toUInt8 row.toUInt8 column.toUInt8
      (f.keycodeAtKeymapLocationRaw layer.toUInt8 row.toUInt8 column.toUInt8)) m
  forN f.dims.numEncoders (fun encoder m =>
    let m := dynamicKeymapSetEncoder f.dims m layer.toUInt8 encoder.toUInt8 true
      (f.keycodeAtEncodermapLocationRaw layer.toUInt8 encoder.toUInt8 true)
    dynamicKeymapSetEncoder f.dims m layer.toUInt8 encoder.toUInt8 false
      (f.keycodeAtEncodermapLocationRaw layer.toUInt8 encoder.toUInt8 false)) m

/-- The three tables of Vial entries, back to their defaults. -/
def entriesReset (f : Firmware) (m : EepromMem) : EepromMem :=
  let td : VialTapDanceEntry := ⟨0, 0, 0, 0, f.settings.tappingTerm⟩
  let m := forN f.dims.tapDanceEntries
    (fun k m => (dynamicKeymapSetTapDance f.dims m k.toUInt8 td).2) m
  let m := forN f.dims.comboEntries
    (fun k m => (dynamicKeymapSetCombo f.dims m k.toUInt8 ⟨#v[0, 0, 0, 0], 0⟩).2) m
  let ko : VialKeyOverrideEntry := ⟨0, 0, 0xFFFF, 0, 0, 0, 0x07⟩
  forN f.dims.keyOverrideEntries
    (fun k m => (dynamicKeymapSetKeyOverride f.dims m k.toUInt8 ko).2) m

def dynamicKeymapReset (f : Firmware) (b : Board) : Board :=
  -- temporarily unlocked, so that a hardcoded QK_BOOT can be set
  let vialUnlockedPrev := b.vialUnlocked
  let b := { b with vialUnlocked := true }
  let b := { b with eeprom := forN f.dims.layerCount (keymapResetLayer f) b.eeprom }
  let b := { b with toSettingsState := qmkSettingsReset f.dims f.settings b.toSettingsState }
  let b := { b with eeprom := entriesReset f b.eeprom }
  { b with vialUnlocked := vialUnlockedPrev }

def eeconfigInitVia (f : Firmware) (b : Board) : Board :=
  let b := { b with eeprom := viaEepromSetValid f false b.eeprom }
  let b := { b with eeprom := viaSetLayoutOptions f.dims f.layoutOptionsDefault b.eeprom }
  let b := dynamicKeymapReset f b
  let b := { b with eeprom := dynamicKeymapMacroReset f.dims b.eeprom }
  { b with eeprom := viaEepromSetValid f true b.eeprom }

/-- The commands that are still served while an unlock is in progress. -/
def VialCmd.allowedInProgress : VialCmd → Bool
  | .getKeyboardId | .getSize | .getDef | .getUnlockStatus | .unlockStart | .unlockPoll => true
  | _ => false

def allowedInProgress (data : Ram) : Bool :=
  ViaCmd.ofByte (data 0) = some .vialPrefix ∧
    (VialCmd.ofByte (data 1)).any VialCmd.allowedInProgress = true

/-- The weak `raw_hid_receive_kb`: the command is not known. -/
def rawHidReceiveKb (data : Ram) : Ram := data.writeBlock 0 [0xFF]

def be32 (v : UInt32) : List UInt8 :=
  [(v >>> 24).toUInt8, (v >>> 16).toUInt8, (v >>> 8).toUInt8, v.toUInt8]

/-- The rows of the matrix as `id_switch_matrix_state` packs them. -/
def switchMatrixState (f : Firmware) (i : HidInput) : List UInt8 :=
  let bytes := if f.dims.matrixCols > 24 then 4 else if f.dims.matrixCols > 16 then 3
    else if f.dims.matrixCols > 8 then 2 else 1
  if (f.dims.matrixCols / 8 + 1) * f.dims.matrixRows ≤ 28 then
    (List.range f.dims.matrixRows).flatMap fun row => (be32 (i.matrix row.toUInt8)).drop (4 - bytes)
  else []

def getKeyboardValue (f : Firmware) (b : Board) (i : HidInput) : Ram :=
  match (i.data 1).toNat with
  | 0x01 => i.data.writeBlock 2 (be32 i.timerRead32)
  | 0x02 => i.data.writeBlock 2 (be32 (viaGetLayoutOptions f.dims b.eeprom))
  | 0x03 => if b.vialUnlocked then i.data.writeBlock 2 (switchMatrixState f i) else i.data
  | _ => rawHidReceiveKb i.data

/-- The offset and the size a bulk command carries; its bytes start at 4. -/
def bulkOffset (data : Ram) : UInt16 := beWord (data 1) (data 2)

def bulkSize (data : Ram) : UInt16 := (data 3).toUInt16

def layoutOptionsArg (data : Ram) : UInt32 :=
  ((data 2).toUInt32 <<< 24) ||| ((data 3).toUInt32 <<< 16) ||| ((data 4).toUInt32 <<< 8) |||
    (data 5).toUInt32

def dynamicKeymapSetBufferCmd (f : Firmware) (b : Board) (data : Ram) : Board × Ram :=
  if bulkSize data ≤ 28 then
    let r := dynamicKeymapSetBuffer f.dims b.vialUnlocked b.eeprom (bulkOffset data) (bulkSize data)
      4 data
    ({ b with eeprom := r.1 }, r.2)
  else (b, data)

def rawHidSwitch (f : Firmware) (b : Board) (i : HidInput) : Board × Ram :=
  let data := i.data
  match ViaCmd.ofByte (i.data 0) with
  | some .getProtocolVersion => (b, data.writeBlock 1 [0x00, 0x09])
  | some .getKeyboardValue => (b, getKeyboardValue f b i)
  | some .setKeyboardValue =>
    if data 1 = 0x02 then
      ({ b with eeprom := viaSetLayoutOptions f.dims (layoutOptionsArg data) b.eeprom }, data)
    else (b, rawHidReceiveKb data)
  | some .dynamicKeymapGetKeycode =>
    let keycode := dynamicKeymapGetKeycode f.dims b.eeprom (data 1) (data 2) (data 3)
    (b, data.writeBlock 4 [hiByte keycode, loByte keycode])
  | some .dynamicKeymapSetKeycode =>
    ({ b with
        eeprom := dynamicKeymapSetKeycode f.dims b.eeprom (data 1) (data 2) (data 3)
          (beWord (data 4) (data 5)) }, data)
  | some .dynamicKeymapReset => (dynamicKeymapReset f b, data)
  | some .lightingSetValue | some .lightingGetValue | some .lightingSave =>
    (b, data.writeBlock 0 [0xFF])
  | some .eepromReset =>
    if f.viaEepromAllowReset then
      (eeconfigInitVia f { b with eeprom := viaEepromSetValid f false b.eeprom }, data)
    else (b, rawHidReceiveKb data)
  | some .dynamicKeymapMacroGetCount => (b, data.writeBlock 1 [f.macroCount])
  | some .dynamicKeymapMacroGetBufferSize =>
    let size := f.dims.dynamicKeymapMacroEepromSize.toUInt16
    (b, data.writeBlock 1 [hiByte size, loByte size])
  | some .dynamicKeymapMacroGetBuffer =>
    (b, if bulkSize data ≤ 28 then
        dynamicKeymapMacroGetBuffer f.dims b.eeprom (bulkOffset data) (bulkSize data) 4 data
      else data)
  | some .dynamicKeymapMacroSetBuffer =>
    -- until the keyboard is unlocked, macros do not change
    if b.vialUnlocked = true ∧ bulkSize data ≤ 28 then
      ({ b with
          eeprom := dynamicKeymapMacroSetBuffer f.dims b.eeprom (bulkOffset data)
            (bulkSize data) 4 data }, data)
    else (b, data)
  | some .dynamicKeymapMacroReset =>
    ({ b with eeprom := dynamicKeymapMacroReset f.dims b.eeprom }, data)
  | some .dynamicKeymapGetLayerCount =>
    (b, data.writeBlock 1 [f.dims.layerCount.toUInt8])
  | some .dynamicKeymapGetBuffer =>
    (b, if bulkSize data ≤ 28 then
        dynamicKeymapGetBuffer f.dims b.eeprom (bulkOffset data) (bulkSize data) 4 data
      else data)
  | some .dynamicKeymapSetBuffer => dynamicKeymapSetBufferCmd f b data
  | some .bootloaderJump =>
    -- until the keyboard is unlocked, there is no jump to the bootloader
    if b.vialUnlocked then ({ b with bootloaderJumped := true }, data) else (b, data)
  | some .vialPrefix => vialHandleCmd f b i data i.length
  | none => (b, rawHidReceiveKb data)

def rawHidReceive (f : Firmware) (b : Board) (i : HidInput) : Board × Ram :=
  -- when unlock is in progress, only a subset of the commands is served
  if b.vialUnlockInProgress = true ∧ allowedInProgress i.data = false then (b, i.data)
  else rawHidSwitch f b i

def run (f : Firmware) (b : Board) (is : List HidInput) : Board :=
  is.foldl (fun b i => (rawHidReceive f b i).1) b

@[simp] theorem run_nil (f : Firmware) (b : Board) : run f b [] = b := rfl

@[simp] theorem run_append_singleton (f : Firmware) (b : Board) (is : List HidInput) (i : HidInput) :
    run f b (is ++ [i]) = (rawHidReceive f (run f b is) i).1 := by
  simp [run]

/-- The message is the Vial command `c`, in a packet of the right size. -/
def HidInput.IsVial (i : HidInput) (c : VialCmd) : Prop :=
  ViaCmd.ofByte (i.data 0) = some .vialPrefix ∧ i.length = vialRawEpsize ∧
    VialCmd.ofByte (i.data 1) = some c

def HidInput.IsVia (i : HidInput) (c : ViaCmd) : Prop := ViaCmd.ofByte (i.data 0) = some c

def Board.Serves (b : Board) (i : HidInput) : Prop :=
  b.vialUnlockInProgress = false ∨ allowedInProgress i.data = true

/-- The effects of one message on the board, one constructor for each command that has one. -/
inductive Handled (f : Firmware) (b : Board) (i : HidInput) : Board → Prop where
  | reply : Handled f b i b
  | setLayoutOptions (value : UInt32) (hfree : b.vialUnlockInProgress = false) :
      Handled f b i { b with eeprom := viaSetLayoutOptions f.dims value b.eeprom }
  | setKeycode (hcmd : i.IsVia .dynamicKeymapSetKeycode) (hfree : b.vialUnlockInProgress = false) :
      Handled f b i { b with
        eeprom := dynamicKeymapSetKeycode f.dims b.eeprom (i.data 1) (i.data 2) (i.data 3)
          (beWord (i.data 4) (i.data 5)) }
  | keymapReset (hcmd : i.IsVia .dynamicKeymapReset) (hfree : b.vialUnlockInProgress = false) :
      Handled f b i (dynamicKeymapReset f b)
  | eepromReset (hcmd : i.IsVia .eepromReset) (hfree : b.vialUnlockInProgress = false) :
      Handled f b i (eeconfigInitVia f { b with eeprom := viaEepromSetValid f false b.eeprom })
  | macroSetBuffer (hunlocked : b.vialUnlocked = true) (hfree : b.vialUnlockInProgress = false) :
      Handled f b i { b with
        eeprom := dynamicKeymapMacroSetBuffer f.dims b.eeprom (bulkOffset i.data)
          (bulkSize i.data) 4 i.data }
  | macroReset (hfree : b.vialUnlockInProgress = false) :
      Handled f b i { b with eeprom := dynamicKeymapMacroReset f.dims b.eeprom }
  | setBuffer (hfree : b.vialUnlockInProgress = false) :
      Handled f b i { b with
        eeprom := (dynamicKeymapSetBuffer f.dims b.vialUnlocked b.eeprom (bulkOffset i.data)
          (bulkSize i.data) 4 i.data).1 }
  | bootloaderJump (hunlocked : b.vialUnlocked = true) (hfree : b.vialUnlockInProgress = false) :
      Handled f b i { b with bootloaderJumped := true }
  | setEncoder (hfree : b.vialUnlockInProgress = false) :
      Handled f b i (vialSetEncoder f b i.data)
  | unlockStart (hcmd : i.IsVial .unlockStart) : Handled f b i (vialUnlockStart b i)
  | unlockPoll (hcmd : i.IsVial .unlockPoll) : Handled f b i (vialUnlockPoll f b i)
  | lock (hfree : b.vialUnlockInProgress = false) : Handled f b i { b with vialUnlocked := false }
  | settingsSet (qsid : UInt16) (maxsz : Nat) (hfree : b.vialUnlockInProgress = false) :
      Handled f b i { b with
        toSettingsState := (qmkSettingsSet f.dims f.settings b.toSettingsState qsid i.data 4
          maxsz).2 }
  | settingsReset (hfree : b.vialUnlockInProgress = false) :
      Handled f b i { b with
        toSettingsState := qmkSettingsReset f.dims f.settings b.toSettingsState }
  | tapDanceSet (entry : VialTapDanceEntry) (hfree : b.vialUnlockInProgress = false) :
      Handled f b i { b with
        eeprom := (dynamicKeymapSetTapDance f.dims b.eeprom (i.data 3)
          (b.firewallTapDance entry)).2 }
  | comboSet (entry : VialComboEntry) (hfree : b.vialUnlockInProgress = false) :
      Handled f b i (reloadCombo f { b with
        eeprom := (dynamicKeymapSetCombo f.dims b.eeprom (i.data 3) (b.firewallCombo entry)).2 })
  | keyOverrideSet (entry : VialKeyOverrideEntry) (hfree : b.vialUnlockInProgress = false) :
      Handled f b i (reloadKeyOverride f { b with
        eeprom := (dynamicKeymapSetKeyOverride f.dims b.eeprom (i.data 3)
          (b.firewallKeyOverride entry)).2 })

section Inversion

variable {f : Firmware} {b : Board} {i : HidInput}

theorem Board.Serves.free {c : VialCmd} (h : b.Serves i) (hc : VialCmd.ofByte (i.data 1) = some c)
    (hne : c.allowedInProgress = false) : b.vialUnlockInProgress = false := by
  rcases h with h | h
  · exact h
  · simp [allowedInProgress, hc, hne] at h

theorem Board.Serves.free_of_via {c : ViaCmd} (h : b.Serves i) (hc : i.IsVia c)
    (hne : c ≠ .vialPrefix) : b.vialUnlockInProgress = false := by
  rcases h with h | h
  · exact h
  · simp only [allowedInProgress, decide_eq_true_eq] at h
    rw [HidInput.IsVia, h.1] at hc
    exact absurd (Option.some.inj hc).symm hne

theorem vialDynamicEntryOp_handled (hfree : b.vialUnlockInProgress = false) (length : UInt8) :
    Handled f b i (vialDynamicEntryOp f b i.data length).1 := by
  unfold vialDynamicEntryOp
  cases DynamicEntryOp.ofByte (i.data 2) with
  | none => exact .reply
  | some op =>
    cases op with
    | getNumberOfEntries | tapDanceGet | comboGet | keyOverrideGet => exact .reply
    | tapDanceSet => exact .tapDanceSet _ hfree
    | comboSet => exact .comboSet _ hfree
    | keyOverrideSet => exact .keyOverrideSet _ hfree

theorem vialHandleCmd_handled (hs : b.Serves i) (hv : ViaCmd.ofByte (i.data 0) = some .vialPrefix) :
    Handled f b i (vialHandleCmd f b i i.data i.length).1 := by
  unfold vialHandleCmd
  split
  · exact .reply
  · rename_i hlen
    have hlen : i.length = vialRawEpsize := not_not.mp hlen
    cases hc : VialCmd.ofByte (i.data 1) with
    | none => exact .reply
    | some c =>
      have hfree := hs.free hc
      cases c with
      | getKeyboardId | getSize | getDef | getEncoder | getUnlockStatus | qmkSettingsQuery
      | qmkSettingsGet => exact .reply
      | setEncoder => exact .setEncoder (hfree (by decide))
      | unlockStart => exact .unlockStart ⟨hv, hlen, hc⟩
      | unlockPoll => exact .unlockPoll ⟨hv, hlen, hc⟩
      | lock => exact .lock (hfree (by decide))
      | qmkSettingsSet => exact .settingsSet _ _ (hfree (by decide))
      | qmkSettingsReset => exact .settingsReset (hfree (by decide))
      | dynamicEntryOp => exact vialDynamicEntryOp_handled (hfree (by decide)) _

theorem rawHidSwitch_handled (hs : b.Serves i) : Handled f b i (rawHidSwitch f b i).1 := by
  unfold rawHidSwitch
  cases hc : ViaCmd.ofByte (i.data 0) with
  | none => exact .reply
  | some c =>
    have hfree := hs.free_of_via hc
    cases c with
    | getProtocolVersion | getKeyboardValue | dynamicKeymapGetKeycode | lightingSetValue
    | lightingGetValue | lightingSave | dynamicKeymapMacroGetCount
    | dynamicKeymapMacroGetBufferSize | dynamicKeymapMacroGetBuffer
    | dynamicKeymapGetLayerCount | dynamicKeymapGetBuffer => exact .reply
    | setKeyboardValue =>
      have := hfree (by decide)
      dsimp only
      split
      · exact .setLayoutOptions _ this
      · exact .reply
    | dynamicKeymapSetKeycode => exact .setKeycode hc (hfree (by decide))
    | dynamicKeymapReset => exact .keymapReset hc (hfree (by decide))
    | eepromReset =>
      have := hfree (by decide)
      dsimp only
      split
      · exact .eepromReset hc this
      · exact .reply
    | bootloaderJump =>
      have := hfree (by decide)
      dsimp only
      split
      · rename_i hu
        exact .bootloaderJump hu this
      · exact .reply
    | dynamicKeymapMacroSetBuffer =>
      have := hfree (by decide)
      dsimp only
      split
      · rename_i hu
        exact .macroSetBuffer hu.1 this
      · exact .reply
    | dynamicKeymapMacroReset => exact .macroReset (hfree (by decide))
    | dynamicKeymapSetBuffer =>
      have := hfree (by decide)
      simp only [dynamicKeymapSetBufferCmd]
      split
      · exact .setBuffer this
      · exact .reply
    | vialPrefix => exact vialHandleCmd_handled hs hc

theorem rawHidReceive_handled (f : Firmware) (b : Board) (i : HidInput) :
    Handled f b i (rawHidReceive f b i).1 := by
  unfold rawHidReceive
  by_cases h : b.vialUnlockInProgress = true ∧ allowedInProgress i.data = false
  · rw [if_pos h]
    exact .reply
  · rw [if_neg h]
    refine rawHidSwitch_handled ?_
    unfold Board.Serves
    cases h' : b.vialUnlockInProgress <;> cases h'' : allowedInProgress i.data <;> simp_all

/-- While an unlock is in progress, a message outside the allow list leaves the board alone. -/
theorem rawHidReceive_filtered (hp : b.vialUnlockInProgress = true)
    (ha : allowedInProgress i.data = false) : rawHidReceive f b i = (b, i.data) := by
  rw [rawHidReceive, if_pos ⟨hp, ha⟩]

end Inversion
end Hid
end VialQmk
