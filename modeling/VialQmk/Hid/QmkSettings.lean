import VialQmk.Eeprom.DynamicKeymap

/-!
# Hid.QmkSettings

`qmk_settings.c`: the settings a host reads and writes by id. They live in the RAM structure `QS`,
36 bytes mirrored in the EEPROM; setting 21 is the keymap configuration word, stored in the
`eeconfig` area. Sending an empty report (`clear_keyboard`) and the `notify` callbacks have no effect
on this state.
-/

namespace VialQmk
namespace Hid

open Lib Eeprom

/-- What the settings code reads and writes: the EEPROM, `QS` byte by byte, `keymap_config.raw`. -/
structure SettingsState where
  eeprom : EepromMem
  qs : Mem UInt8
  keymapConfig : UInt16

/-- Where a setting lives: a field of `QS`, or the keymap configuration. -/
inductive SettingKind where
  | field (offset size : Nat)
  | magic
  deriving DecidableEq, Repr

structure QmkSettingsProto where
  qsid : UInt16
  kind : SettingKind
  deriving DecidableEq, Repr

/-- The configuration `qmk_settings_reset` falls back to. -/
structure SettingDefaults where
  /-- `MOUSEKEY_ENABLE` without `MK_3_SPEED`. -/
  mousekey : Bool
  autoShiftTimeout : UInt16
  oneshotTapToggle : UInt8
  oneshotTimeout : UInt16
  mousekeys : Vector UInt16 9
  comboTerm : UInt16
  tappingTerm : UInt16
  tapCodeDelay : UInt16
  tapHoldCapsDelay : UInt16
  tappingToggle : UInt8

/-- `protos[]`, with the offsets of the fields of `qmk_settings_t`. -/
def protos (c : SettingDefaults) : List QmkSettingsProto :=
  [⟨1, .field 26 1⟩, ⟨2, .field 22 2⟩, ⟨3, .field 27 1⟩, ⟨4, .field 0 2⟩, ⟨5, .field 28 1⟩,
    ⟨6, .field 2 2⟩, ⟨7, .field 24 2⟩, ⟨8, .field 29 1⟩] ++
  (if c.mousekey then
    [⟨9, .field 4 2⟩, ⟨10, .field 6 2⟩, ⟨11, .field 8 2⟩, ⟨12, .field 10 2⟩, ⟨13, .field 12 2⟩,
      ⟨14, .field 14 2⟩, ⟨15, .field 16 2⟩, ⟨16, .field 18 2⟩, ⟨17, .field 20 2⟩]
  else []) ++
  [⟨18, .field 30 2⟩, ⟨19, .field 32 2⟩, ⟨20, .field 34 1⟩, ⟨21, .magic⟩]

def eepromSettingsLoadN (d : Dims) (s : SettingsState) : Nat → Mem UInt8
  | 0 => s.qs
  | n + 1 => Function.update (eepromSettingsLoadN d s n) n
      (dynamicKeymapGetQmkSettings d s.eeprom n.toUInt16)

def eepromSettingsLoad (d : Dims) (s : SettingsState) : SettingsState :=
  { s with qs := eepromSettingsLoadN d s vialQmkSettingsSize }

def eepromSettingsSaveN (d : Dims) (s : SettingsState) : Nat → EepromMem
  | 0 => s.eeprom
  | n + 1 =>
    let m := eepromSettingsSaveN d s n
    if dynamicKeymapGetQmkSettings d m n.toUInt16 ≠ s.qs n then
      dynamicKeymapSetQmkSettings d m n.toUInt16 (s.qs n)
    else m

def eepromSettingsSave (d : Dims) (s : SettingsState) : SettingsState :=
  { s with eeprom := eepromSettingsSaveN d s vialQmkSettingsSize }

def eeconfigUpdateKeymap (s : SettingsState) : SettingsState :=
  let word := [loByte s.keymapConfig, hiByte s.keymapConfig]
  { s with eeprom := s.eeprom.writeBlock eeconfigKeymap word }

def qmkSettingsInit (d : Dims) (s : SettingsState) : SettingsState := eepromSettingsLoad d s

/-- The assignments to `QS` at the start of `qmk_settings_reset`; `unused` and, without mouse keys,
their fields keep their bytes. -/
def qsDefaults (c : SettingDefaults) (qs : Mem UInt8) : Mem UInt8 :=
  let word (qs : Mem UInt8) (offset : Nat) (v : UInt16) := qs.writeBlock offset [loByte v, hiByte v]
  let qs := Function.update qs 26 0
  let qs := Function.update qs 27 0
  let qs := word qs 0 c.autoShiftTimeout
  let qs := Function.update qs 28 c.oneshotTapToggle
  let qs := word qs 2 c.oneshotTimeout
  let qs := if c.mousekey then
      qs.writeBlock 4 (c.mousekeys.toList.flatMap fun v => [loByte v, hiByte v])
    else qs
  let qs := word qs 22 c.comboTerm
  let qs := word qs 24 c.tappingTerm
  let qs := Function.update qs 29 0
  let qs := word qs 30 c.tapCodeDelay
  let qs := word qs 32 c.tapHoldCapsDelay
  Function.update qs 34 c.tappingToggle

def qmkSettingsReset (d : Dims) (c : SettingDefaults) (s : SettingsState) : SettingsState :=
  let s := eepromSettingsSave d { s with qs := qsDefaults c s.qs }
  -- `keymap_config.raw = 0; keymap_config.oneshot_enable = 1`
  let s := eeconfigUpdateKeymap { s with keymapConfig := 0x0400 }
  qmkSettingsInit d s

/-- `qmk_settings_query`: the ids greater than `qsidGt` that fit into `sz` bytes at `buffer`. -/
def qmkSettingsQuery (c : SettingDefaults) (qsidGt : UInt16) (ram : Ram) (buffer sz : Nat) : Ram :=
  let rec go : List QmkSettingsProto → Nat → Ram → Ram
    | [], _, ram => ram
    | p :: ps, bufferOffset, ram =>
      if bufferOffset + 2 > sz then ram
      else if p.qsid > qsidGt then
        go ps (bufferOffset + 2)
          (ram.writeBlock (buffer + bufferOffset) [loByte p.qsid, hiByte p.qsid])
      else go ps bufferOffset ram
  go (protos c) 0 (ram.writeBlock buffer (List.replicate sz 0xFF))

def findSetting (c : SettingDefaults) (qsid : UInt16) : Option QmkSettingsProto :=
  (protos c).find? fun p => p.qsid = qsid

def magicMask : UInt16 := 0x03FF

/-- `qmk_settings_get`: the status, and the RAM with the setting copied to `setting`. -/
def qmkSettingsGet (c : SettingDefaults) (s : SettingsState) (qsid : UInt16) (ram : Ram)
    (setting maxsz : Nat) : Int × Ram :=
  match findSetting c qsid with
  | none => (-1, ram)
  | some p =>
    match p.kind with
    | .field offset size =>
      if size > maxsz then (-1, ram) else (0, ram.writeBlock setting (s.qs.readBlock offset size))
    | .magic =>
      if maxsz < 4 then (-1, ram)
      else
        let flags := s.keymapConfig &&& magicMask
        (0, ram.writeBlock setting [loByte flags, hiByte flags, 0, 0])

def qmkSettingsSet (d : Dims) (c : SettingDefaults) (s : SettingsState) (qsid : UInt16) (ram : Ram)
    (setting maxsz : Nat) : Int × SettingsState :=
  match findSetting c qsid with
  | none => (-1, s)
  | some p =>
    match p.kind with
    | .field offset size =>
      if size > maxsz then (-1, s)
      else
        (0, eepromSettingsSave d
          { s with qs := s.qs.writeBlock offset (ram.readBlock setting size) })
    | .magic =>
      if maxsz < 4 then (-1, s)
      else
        let flags := beWord (ram (setting + 1)) (ram setting)
        (0, eeconfigUpdateKeymap
          { s with keymapConfig := (s.keymapConfig &&& ~~~magicMask) ||| (flags &&& magicMask) })

variable (d : Dims) (s : SettingsState)

theorem eepromSettingsLoadN_zero : eepromSettingsLoadN d s 0 = s.qs := rfl

theorem eepromSettingsLoadN_succ (n : Nat) :
    eepromSettingsLoadN d s (n + 1) = Function.update (eepromSettingsLoadN d s n) n
      (dynamicKeymapGetQmkSettings d s.eeprom n.toUInt16) := rfl

-- The loops run a fixed 36 rounds; proofs go by induction on the rounds, never by running them.
attribute [irreducible] eepromSettingsLoadN eepromSettingsSaveN

/-- The addresses the settings code may write: its own area and the keymap configuration word. -/
def SettingsAddr (d : Dims) (x : Nat) : Prop :=
  (d.vialQmkSettingsEepromAddr ≤ x ∧ x < d.vialQmkSettingsEepromAddr + vialQmkSettingsSize) ∨
    (eeconfigKeymap ≤ x ∧ x < eeconfigKeymap + 2)

/-- Outside its addresses the settings code leaves the EEPROM as it was. -/
def SettingsFrame (d : Dims) (m m' : EepromMem) : Prop := ∀ x, ¬ SettingsAddr d x → m' x = m x

theorem SettingsFrame.refl {d : Dims} {m : EepromMem} : SettingsFrame d m m := fun _ _ => rfl

theorem SettingsFrame.trans {d : Dims} {m m' m'' : EepromMem} (h : SettingsFrame d m m')
    (h' : SettingsFrame d m' m'') : SettingsFrame d m m'' :=
  fun x hx => (h' x hx).trans (h x hx)

theorem setQmkSettings_frame (m : EepromMem) (o : UInt16) (v : UInt8) :
    SettingsFrame d m (dynamicKeymapSetQmkSettings d m o v) := by
  intro x hx
  unfold dynamicKeymapSetQmkSettings
  split
  · rfl
  · rename_i ho
    refine Function.update_of_ne ?_ _ _
    rintro rfl
    exact hx (.inl ⟨by omega, by omega⟩)

theorem eepromSettingsSaveN_frame (n : Nat) : SettingsFrame d s.eeprom (eepromSettingsSaveN d s n) := by
  induction n with
  | zero =>
    simp only [eepromSettingsSaveN]
    exact .refl
  | succ n ih =>
    simp only [eepromSettingsSaveN]
    split
    · exact ih.trans (setQmkSettings_frame d _ _ _)
    · exact ih

theorem eepromSettingsSave_frame : SettingsFrame d s.eeprom (eepromSettingsSave d s).eeprom := by
  simp only [eepromSettingsSave]
  exact eepromSettingsSaveN_frame d s vialQmkSettingsSize

theorem eeconfigUpdateKeymap_frame : SettingsFrame d s.eeprom (eeconfigUpdateKeymap s).eeprom := by
  intro x hx
  have hx' : x < eeconfigKeymap ∨ eeconfigKeymap + 2 ≤ x := by
    by_contra hc
    exact hx (.inr ⟨by omega, by omega⟩)
  rcases hx' with h | h
  · exact Mem.writeBlock_of_lt _ _ _ h
  · exact Mem.writeBlock_of_ge h

theorem qmkSettingsReset_frame (c : SettingDefaults) (s : SettingsState) :
    SettingsFrame d s.eeprom (qmkSettingsReset d c s).eeprom :=
  (eepromSettingsSave_frame d { s with qs := qsDefaults c s.qs }).trans
    (eeconfigUpdateKeymap_frame d _)

theorem qmkSettingsSet_frame (c : SettingDefaults) (s : SettingsState) (qsid : UInt16) (ram : Ram)
    (setting maxsz : Nat) : SettingsFrame d s.eeprom (qmkSettingsSet d c s qsid ram setting maxsz).2.eeprom := by
  unfold qmkSettingsSet
  split
  · exact .refl
  · split
    · split
      · exact .refl
      · exact eepromSettingsSave_frame d _
    · split
      · exact .refl
      · exact eeconfigUpdateKeymap_frame d _

end Hid
end VialQmk
