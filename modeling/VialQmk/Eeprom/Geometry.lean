import Mathlib.Tactic.Common

/-!
# Eeprom.Geometry

The EEPROM layout of `dynamic_keymap.c`: the configuration a keyboard fixes at compile time, and
the addresses the `DYNAMIC_KEYMAP_*` and `VIAL_*` macros chain out of it.

`Geometry` carries the compile-time checks, so that a layout that does not fit cannot be built.
The build is Vial's: `VIAL_ENABLE`, `QMK_SETTINGS` and `ENCODER_MAP_ENABLE` are on, and a disabled
feature (tap dance, combos, key overrides) has zero entries, as `vial.h` sets it.
-/

namespace VialQmk
namespace Eeprom

def eeconfigBaseSize : Nat := 36

/-- `offsetof(eeprom_core_t, keymap)`, where `eeconfig_update_keymap` writes two bytes. -/
def eeconfigKeymap : Nat := 4

def vialQmkSettingsSize : Nat := 36

/-- The sizes a keyboard's `config.h` chooses. -/
structure Dims where
  matrixRows : Nat
  matrixCols : Nat
  layerCount : Nat
  numEncoders : Nat
  tapDanceEntries : Nat
  comboEntries : Nat
  keyOverrideEntries : Nat
  kbDataSize : Nat
  userDataSize : Nat
  layoutOptionsSize : Nat
  customConfigSize : Nat
  maxAddr : Nat
  deriving DecidableEq, Repr

namespace Dims

variable (d : Dims)

def eeconfigSize : Nat := eeconfigBaseSize + d.kbDataSize + d.userDataSize

def viaEepromMagicAddr : Nat := d.eeconfigSize

def viaEepromLayoutOptionsAddr : Nat := d.viaEepromMagicAddr + 3

def viaEepromConfigEnd : Nat :=
  d.viaEepromLayoutOptionsAddr + d.layoutOptionsSize + d.customConfigSize

def dynamicKeymapEepromAddr : Nat := d.viaEepromConfigEnd

/-- `DYNAMIC_KEYMAP_LAYER_COUNT * MATRIX_ROWS * MATRIX_COLS * 2`. -/
def dynamicKeymapEepromSize : Nat := d.layerCount * d.matrixRows * d.matrixCols * 2

def vialEncodersEepromAddr : Nat := d.dynamicKeymapEepromAddr + d.dynamicKeymapEepromSize

def vialEncodersSize : Nat := d.numEncoders * d.layerCount * 2 * 2

def vialQmkSettingsEepromAddr : Nat := d.vialEncodersEepromAddr + d.vialEncodersSize

def vialTapDanceEepromAddr : Nat := d.vialQmkSettingsEepromAddr + vialQmkSettingsSize

def vialTapDanceSize : Nat := 10 * d.tapDanceEntries

def vialComboEepromAddr : Nat := d.vialTapDanceEepromAddr + d.vialTapDanceSize

def vialComboSize : Nat := 10 * d.comboEntries

def vialKeyOverrideEepromAddr : Nat := d.vialComboEepromAddr + d.vialComboSize

def vialKeyOverrideSize : Nat := 10 * d.keyOverrideEntries

def dynamicKeymapMacroEepromAddr : Nat := d.vialKeyOverrideEepromAddr + d.vialKeyOverrideSize

def dynamicKeymapMacroEepromSize : Nat := d.maxAddr - d.dynamicKeymapMacroEepromAddr + 1

end Dims

/-- A configuration that compiles: the static assertion on the macro area and the `#error` on
`DYNAMIC_KEYMAP_EEPROM_MAX_ADDR` hold. -/
structure Geometry extends Dims where
  fits : toDims.dynamicKeymapMacroEepromAddr + 100 ≤ maxAddr
  maxAddr_le : maxAddr ≤ 65535

theorem kibibyte_le : 1023 ≤ 65535 := by decide

namespace Geometry

variable (g : Geometry)

theorem macroAddr_eq : g.dynamicKeymapMacroEepromAddr =
    g.dynamicKeymapEepromAddr + g.dynamicKeymapEepromSize + g.vialEncodersSize +
      vialQmkSettingsSize + g.vialTapDanceSize + g.vialComboSize + g.vialKeyOverrideSize := rfl

theorem eepromSize_lt : g.dynamicKeymapEepromSize < 65536 := by
  have h := g.fits
  have h' := g.maxAddr_le
  rw [g.macroAddr_eq] at h
  omega

theorem macro_end : g.dynamicKeymapMacroEepromAddr + g.dynamicKeymapMacroEepromSize = g.maxAddr + 1 := by
  have h := g.fits
  rw [Dims.dynamicKeymapMacroEepromSize]
  omega

theorem eeconfigKeymap_lt : eeconfigKeymap + 2 ≤ g.dynamicKeymapEepromAddr := by
  simp only [Dims.dynamicKeymapEepromAddr, Dims.viaEepromConfigEnd, Dims.viaEepromLayoutOptionsAddr,
    Dims.viaEepromMagicAddr, Dims.eeconfigSize, eeconfigBaseSize, eeconfigKeymap]
  omega

end Geometry
end Eeprom
end VialQmk
