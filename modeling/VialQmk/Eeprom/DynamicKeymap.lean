import VialQmk.Eeprom.Entries
import VialQmk.Eeprom.Geometry

/-!
# Eeprom.DynamicKeymap

The accessors of `dynamic_keymap.c`: keymap cells, encoder directions, QMK settings, Vial entries,
and the two bulk views of the keymap and of the macro area.

The EEPROM is a memory of bytes. A bulk command works on the RAM the host's message lies in, so
its `data` pointer is an index into a second memory: `data[size - 1]` and the packet check of
`dynamic_keymap_set_buffer` read and write that RAM exactly where the C code does, even where this
is outside the message. `int` is taken to be wider than 16 bits.
-/

namespace VialQmk
namespace Eeprom

open Lib

abbrev EepromMem := Mem UInt8

abbrev Ram := Mem UInt8

def eepromUpdateByte (m : EepromMem) (a : Nat) (v : UInt8) : EepromMem := Function.update m a v

def qkBoot : UInt16 := 0x7C00

section Cells

variable (d : Dims)

def dynamicKeymapKeyToEepromAddress (layer row column : UInt8) : Nat :=
  d.dynamicKeymapEepromAddr + layer.toNat * d.matrixRows * d.matrixCols * 2 +
    row.toNat * d.matrixCols * 2 + column.toNat * 2

/-- The bounds check of `dynamic_keymap_get_keycode` and `dynamic_keymap_set_keycode`. -/
def KeyInRange (layer row column : UInt8) : Prop :=
  layer.toNat < d.layerCount ∧ row.toNat < d.matrixRows ∧ column.toNat < d.matrixCols
deriving Decidable

def dynamicKeymapGetKeycode (m : EepromMem) (layer row column : UInt8) : UInt16 :=
  if KeyInRange d layer row column then
    let address := dynamicKeymapKeyToEepromAddress d layer row column
    beWord (m address) (m (address + 1))
  else 0

def dynamicKeymapSetKeycode (m : EepromMem) (layer row column : UInt8) (keycode : UInt16) : EepromMem :=
  if KeyInRange d layer row column then
    let address := dynamicKeymapKeyToEepromAddress d layer row column
    eepromUpdateByte (eepromUpdateByte m address (hiByte keycode)) (address + 1) (loByte keycode)
  else m

def dynamicKeymapEncoderToEepromAddress (layer encoderId : UInt8) : Nat :=
  d.vialEncodersEepromAddr + layer.toNat * d.numEncoders * 2 * 2 + encoderId.toNat * 2 * 2

def EncoderInRange (layer encoderId : UInt8) : Prop :=
  layer.toNat < d.layerCount ∧ encoderId.toNat < d.numEncoders
deriving Decidable

def dynamicKeymapGetEncoder (m : EepromMem) (layer encoderId : UInt8) (clockwise : Bool) : UInt16 :=
  if EncoderInRange d layer encoderId then
    let address := dynamicKeymapEncoderToEepromAddress d layer encoderId
    beWord (m (address + (if clockwise then 0 else 2)))
      (m (address + (if clockwise then 0 else 2) + 1))
  else 0

def dynamicKeymapSetEncoder (m : EepromMem) (layer encoderId : UInt8) (clockwise : Bool)
    (keycode : UInt16) : EepromMem :=
  if EncoderInRange d layer encoderId then
    let address := dynamicKeymapEncoderToEepromAddress d layer encoderId
    eepromUpdateByte
      (eepromUpdateByte m (address + (if clockwise then 0 else 2)) (hiByte keycode))
      (address + (if clockwise then 0 else 2) + 1) (loByte keycode)
  else m

def dynamicKeymapGetQmkSettings (m : EepromMem) (offset : UInt16) : UInt8 :=
  if offset.toNat ≥ vialQmkSettingsSize then 0 else m (d.vialQmkSettingsEepromAddr + offset.toNat)

def dynamicKeymapSetQmkSettings (m : EepromMem) (offset : UInt16) (value : UInt8) : EepromMem :=
  if offset.toNat ≥ vialQmkSettingsSize then m
  else eepromUpdateByte m (d.vialQmkSettingsEepromAddr + offset.toNat) value

end Cells

section Entries

variable {α : Type}

/-- The getter of one table of Vial entries: the status, and the caller's entry overwritten on
success. The three tables differ in their address and number of entries only. -/
def getEntry (c : Codec UInt8 α) (base entries : Nat) (m : EepromMem) (index : UInt8) (entry : α) :
    Int × α :=
  if index.toNat ≥ entries then (-1, entry)
  else (0, c.dec (m.readBlock (base + index.toNat * c.size) c.size))

def setEntry (c : Codec UInt8 α) (base entries : Nat) (m : EepromMem) (index : UInt8) (entry : α) :
    Int × EepromMem :=
  if index.toNat ≥ entries then (-1, m)
  else (0, m.writeBlock (base + index.toNat * c.size) (c.enc entry))

variable (d : Dims)

def dynamicKeymapGetTapDance (m : EepromMem) (index : UInt8) (entry : VialTapDanceEntry) :
    Int × VialTapDanceEntry :=
  getEntry VialTapDanceEntry.codec d.vialTapDanceEepromAddr d.tapDanceEntries m index entry

def dynamicKeymapSetTapDance (m : EepromMem) (index : UInt8) (entry : VialTapDanceEntry) :
    Int × EepromMem :=
  setEntry VialTapDanceEntry.codec d.vialTapDanceEepromAddr d.tapDanceEntries m index entry

def dynamicKeymapGetCombo (m : EepromMem) (index : UInt8) (entry : VialComboEntry) :
    Int × VialComboEntry :=
  getEntry VialComboEntry.codec d.vialComboEepromAddr d.comboEntries m index entry

def dynamicKeymapSetCombo (m : EepromMem) (index : UInt8) (entry : VialComboEntry) : Int × EepromMem :=
  setEntry VialComboEntry.codec d.vialComboEepromAddr d.comboEntries m index entry

def dynamicKeymapGetKeyOverride (m : EepromMem) (index : UInt8) (entry : VialKeyOverrideEntry) :
    Int × VialKeyOverrideEntry :=
  getEntry VialKeyOverrideEntry.codec d.vialKeyOverrideEepromAddr d.keyOverrideEntries m index entry

def dynamicKeymapSetKeyOverride (m : EepromMem) (index : UInt8) (entry : VialKeyOverrideEntry) :
    Int × EepromMem :=
  setEntry VialKeyOverrideEntry.codec d.vialKeyOverrideEepromAddr d.keyOverrideEntries m index entry

end Entries

section Bulk

/-- The first `n` rounds of the copy loop of a bulk getter: bytes at or past `limit` read as 0. -/
def bufferRead (base offset limit data : Nat) (m : EepromMem) (ram : Ram) : Nat → Ram
  | 0 => ram
  | n + 1 => Function.update (bufferRead base offset limit data m ram n) (data + n)
      (if offset + n < limit then m (base + offset + n) else 0)

/-- The first `n` rounds of the copy loop of a bulk setter: bytes at or past `limit` are dropped. -/
def bufferWrite (base offset limit data : Nat) (m : EepromMem) (ram : Ram) : Nat → EepromMem
  | 0 => m
  | n + 1 =>
    let m' := bufferWrite base offset limit data m ram n
    if offset + n < limit then eepromUpdateByte m' (base + offset + n) (ram (data + n)) else m'

/-- One round of the packet check: a keycode that lies whole inside the packet. -/
def checkPair (data i : Nat) (ram : Ram) : Ram :=
  if beWord (ram (data + i)) (ram (data + i + 1)) = qkBoot then
    Function.update (Function.update ram (data + i) 0xFF) (data + i + 1) 0xFF
  else ram

/-- `for (uint16_t i = chk_offset; i < chk_sz; i += 2)`; `i` grows, so `chk_sz` rounds are enough. -/
def checkLoop (chkSz data : Nat) : Nat → Nat → Ram → Ram
  | 0, _, ram => ram
  | fuel + 1, i, ram =>
    if i < chkSz then checkLoop chkSz data fuel (i + 2) (checkPair data i ram) else ram

variable (d : Dims)

def dynamicKeymapGetBuffer (m : EepromMem) (offset size : UInt16) (data : Nat) (ram : Ram) : Ram :=
  let dynamicKeymapEepromSize := d.dynamicKeymapEepromSize % 65536
  bufferRead d.dynamicKeymapEepromAddr offset.toNat dynamicKeymapEepromSize data m ram size.toNat

/-- The packet check of a locked board: the two misaligned ends against the EEPROM, then the
keycodes inside the packet. `chk_sz` is a `uint16_t`, so an empty packet at an odd offset makes it
65535. -/
def checkPacket (m : EepromMem) (target : Nat) (offset size : UInt16) (data : Nat) (ram : Ram) : Ram :=
  let misalignedStart := offset.toNat % 2 ≠ 0
  let ram := if misalignedStart ∧ beWord (m (target - 1)) (ram data) = qkBoot then
      Function.update ram data 0xFF else ram
  let chkOffset := if misalignedStart then 1 else 0
  let misalignedEnd := (offset.toNat + size.toNat) % 2 ≠ 0
  let last := data + size.toNat - 1
  let ram := if misalignedEnd ∧ beWord (ram last) (m (target + size.toNat)) = qkBoot then
      Function.update ram last 0xFF else ram
  let chkSz := if misalignedEnd then (size - 1).toNat else size.toNat
  checkLoop chkSz data chkSz chkOffset ram

def dynamicKeymapSetBuffer (vialUnlocked : Bool) (m : EepromMem) (offset size : UInt16) (data : Nat)
    (ram : Ram) : EepromMem × Ram :=
  let dynamicKeymapEepromSize := d.dynamicKeymapEepromSize % 65536
  let target := d.dynamicKeymapEepromAddr + offset.toNat
  if offset.toNat ≥ dynamicKeymapEepromSize ∨
      dynamicKeymapEepromSize - offset.toNat < size.toNat then (m, ram)
  else
    let ram := if vialUnlocked then ram else checkPacket m target offset size data ram
    (bufferWrite d.dynamicKeymapEepromAddr offset.toNat dynamicKeymapEepromSize data m ram
      size.toNat, ram)

def dynamicKeymapMacroGetBuffer (m : EepromMem) (offset size : UInt16) (data : Nat) (ram : Ram) : Ram :=
  bufferRead d.dynamicKeymapMacroEepromAddr offset.toNat d.dynamicKeymapMacroEepromSize data m ram
    size.toNat

def dynamicKeymapMacroSetBuffer (m : EepromMem) (offset size : UInt16) (data : Nat) (ram : Ram) :
    EepromMem :=
  bufferWrite d.dynamicKeymapMacroEepromAddr offset.toNat d.dynamicKeymapMacroEepromSize data m ram
    size.toNat

/-- The first `n` rounds of the loop of `dynamic_keymap_macro_reset`. -/
def macroClear (m : EepromMem) : Nat → EepromMem
  | 0 => m
  | n + 1 => eepromUpdateByte (macroClear m n) (d.dynamicKeymapMacroEepromAddr + n) 0

def dynamicKeymapMacroReset (m : EepromMem) : EepromMem := macroClear d m d.dynamicKeymapMacroEepromSize

end Bulk

section Loops

variable {base offset limit data : Nat} {m : EepromMem} {ram : Ram}

theorem bufferRead_apply (n x : Nat) :
    bufferRead base offset limit data m ram n x =
      if data ≤ x ∧ x < data + n then
        (if offset + (x - data) < limit then m (base + offset + (x - data)) else 0)
      else ram x := by
  induction n with
  | zero => rw [bufferRead, if_neg (by omega)]
  | succ n ih =>
    rw [bufferRead]
    by_cases hx : x = data + n
    · subst hx
      rw [Function.update_self, Nat.add_sub_cancel_left,
        if_pos (show data ≤ data + n ∧ data + n < data + (n + 1) by omega)]
    · rw [Function.update_of_ne hx, ih]
      have e : (data ≤ x ∧ x < data + (n + 1)) ↔ (data ≤ x ∧ x < data + n) := by omega
      simp only [e]

theorem bufferWrite_apply (n x : Nat) :
    bufferWrite base offset limit data m ram n x =
      if base + offset ≤ x ∧ x < base + offset + n ∧ x < base + limit then
        ram (data + (x - (base + offset)))
      else m x := by
  induction n with
  | zero => rw [bufferWrite, if_neg (by omega)]
  | succ n ih =>
    rw [bufferWrite]
    split
    · rename_i hn
      rw [eepromUpdateByte]
      by_cases hx : x = base + offset + n
      · subst hx
        rw [Function.update_self, if_pos (by omega), Nat.add_sub_cancel_left]
      · rw [Function.update_of_ne hx, ih]
        by_cases h : base + offset ≤ x ∧ x < base + offset + n ∧ x < base + limit
        · rw [if_pos h, if_pos (by omega)]
        · rw [if_neg h, if_neg (by omega)]
    · rename_i hn
      rw [ih]
      by_cases h : base + offset ≤ x ∧ x < base + offset + n ∧ x < base + limit
      · rw [if_pos h, if_pos (by omega)]
      · rw [if_neg h, if_neg (by omega)]

theorem macroClear_apply (d : Dims) (m : EepromMem) (n x : Nat) :
    macroClear d m n x =
      if d.dynamicKeymapMacroEepromAddr ≤ x ∧ x < d.dynamicKeymapMacroEepromAddr + n then 0
      else m x := by
  induction n with
  | zero => rw [macroClear, if_neg (by omega)]
  | succ n ih =>
    rw [macroClear, eepromUpdateByte]
    by_cases hx : x = d.dynamicKeymapMacroEepromAddr + n
    · subst hx
      rw [Function.update_self, if_pos (by omega)]
    · rw [Function.update_of_ne hx, ih]
      by_cases h : d.dynamicKeymapMacroEepromAddr ≤ x ∧ x < d.dynamicKeymapMacroEepromAddr + n
      · rw [if_pos h, if_pos (by omega)]
      · rw [if_neg h, if_neg (by omega)]

end Loops
end Eeprom
end VialQmk
