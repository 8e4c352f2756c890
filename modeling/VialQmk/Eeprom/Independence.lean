import VialQmk.Eeprom.Slots

/-!
# Eeprom.Independence

The layout as a whole: a setter changes its own slot and no other, and the bulk views of the keymap
are the big-endian cells themselves.

`cellOffset` is the offset of a cell in the bulk view, as documented in `dynamic_keymap.h`: offset 0
is (0,0,0), one row is `MATRIX_COLS * 2` bytes, one layer `MATRIX_ROWS * MATRIX_COLS * 2`.
-/

namespace VialQmk
namespace Eeprom

open Lib

def cellOffset (d : Dims) (layer row column : UInt8) : Nat :=
  (Slot.key layer row column).index d * 2

section Cell

variable {g : Geometry} {layer row column : UInt8}

theorem cellOffset_lt (h : KeyInRange g.toDims layer row column) :
    cellOffset g.toDims layer row column + 1 < g.dynamicKeymapEepromSize := by
  have hi : (Slot.key layer row column).index g.toDims <
      g.layerCount * g.matrixRows * g.matrixCols :=
    Slot.index_lt_count (s := .key layer row column) h
  simp only [cellOffset, Dims.dynamicKeymapEepromSize]
  omega

theorem getKeycode_bytes (h : KeyInRange g.toDims layer row column) (m : EepromMem) :
    dynamicKeymapGetKeycode g.toDims m layer row column =
      beWord (m (g.dynamicKeymapEepromAddr + cellOffset g.toDims layer row column))
        (m (g.dynamicKeymapEepromAddr + cellOffset g.toDims layer row column + 1)) := by
  rw [Slot.getKeycode_eq h]; rfl

theorem hiByte_getKeycode (h : KeyInRange g.toDims layer row column) (m : EepromMem) :
    hiByte (dynamicKeymapGetKeycode g.toDims m layer row column) =
      m (g.dynamicKeymapEepromAddr + cellOffset g.toDims layer row column) := by
  rw [getKeycode_bytes h, hiByte_beWord]

theorem loByte_getKeycode (h : KeyInRange g.toDims layer row column) (m : EepromMem) :
    loByte (dynamicKeymapGetKeycode g.toDims m layer row column) =
      m (g.dynamicKeymapEepromAddr + cellOffset g.toDims layer row column + 1) := by
  rw [getKeycode_bytes h, loByte_beWord]

end Cell

def InKeymap (d : Dims) (offset size : UInt16) : Prop :=
  offset.toNat < d.dynamicKeymapEepromSize ∧ offset.toNat + size.toNat ≤ d.dynamicKeymapEepromSize

section Bulk

variable {g : Geometry} {offset size : UInt16} {data : Nat} {m : EepromMem} {ram : Ram}

theorem getBuffer_apply (x : Nat) :
    dynamicKeymapGetBuffer g.toDims m offset size data ram x =
      if data ≤ x ∧ x < data + size.toNat then
        (if offset.toNat + (x - data) < g.dynamicKeymapEepromSize then
          m (g.dynamicKeymapEepromAddr + offset.toNat + (x - data)) else 0)
      else ram x := by
  rw [dynamicKeymapGetBuffer, Nat.mod_eq_of_lt g.eepromSize_lt, bufferRead_apply]

theorem setBuffer_of_not_inKeymap {unlocked : Bool} (h : ¬ InKeymap g.toDims offset size) :
    dynamicKeymapSetBuffer g.toDims unlocked m offset size data ram = (m, ram) := by
  rw [dynamicKeymapSetBuffer, Nat.mod_eq_of_lt g.eepromSize_lt, if_pos]
  simp only [InKeymap] at h
  omega

/-- An accepted packet is first checked unless the board is unlocked, then written as it stands. -/
theorem setBuffer_of_inKeymap {unlocked : Bool} (h : InKeymap g.toDims offset size) :
    dynamicKeymapSetBuffer g.toDims unlocked m offset size data ram =
      let ram' := if unlocked then ram else
        checkPacket m (g.dynamicKeymapEepromAddr + offset.toNat) offset size data ram
      (bufferWrite g.dynamicKeymapEepromAddr offset.toNat g.dynamicKeymapEepromSize data m ram'
        size.toNat, ram') := by
  rw [dynamicKeymapSetBuffer, Nat.mod_eq_of_lt g.eepromSize_lt, if_neg]
  simp only [InKeymap] at h
  omega

theorem bufferWrite_inKeymap (h : InKeymap g.toDims offset size) (x : Nat) :
    bufferWrite g.dynamicKeymapEepromAddr offset.toNat g.dynamicKeymapEepromSize data m ram
        size.toNat x =
      if g.dynamicKeymapEepromAddr + offset.toNat ≤ x ∧
          x < g.dynamicKeymapEepromAddr + offset.toNat + size.toNat then
        ram (data + (x - (g.dynamicKeymapEepromAddr + offset.toNat)))
      else m x := by
  rw [bufferWrite_apply]
  have hb := h.2
  have e : (g.dynamicKeymapEepromAddr + offset.toNat ≤ x ∧
      x < g.dynamicKeymapEepromAddr + offset.toNat + size.toNat ∧
      x < g.dynamicKeymapEepromAddr + g.dynamicKeymapEepromSize) ↔
      (g.dynamicKeymapEepromAddr + offset.toNat ≤ x ∧
      x < g.dynamicKeymapEepromAddr + offset.toNat + size.toNat) := by omega
  simp only [e]

/-- The byte at offset `k` of the keymap after an accepted packet. -/
def bulkByte (offset size : UInt16) (data : Nat) (ram : Ram) (k : Nat) (old : UInt8) : UInt8 :=
  if offset.toNat ≤ k ∧ k < offset.toNat + size.toNat then ram (data + (k - offset.toNat)) else old

theorem bufferWrite_keymapByte (h : InKeymap g.toDims offset size) (k : Nat) :
    bufferWrite g.dynamicKeymapEepromAddr offset.toNat g.dynamicKeymapEepromSize data m ram
        size.toNat (g.dynamicKeymapEepromAddr + k) =
      bulkByte offset size data ram k (m (g.dynamicKeymapEepromAddr + k)) := by
  rw [bufferWrite_inKeymap h, bulkByte]
  have e : (g.dynamicKeymapEepromAddr + offset.toNat ≤ g.dynamicKeymapEepromAddr + k ∧
      g.dynamicKeymapEepromAddr + k < g.dynamicKeymapEepromAddr + offset.toNat + size.toNat) ↔
      (offset.toNat ≤ k ∧ k < offset.toNat + size.toNat) := by omega
  rw [show g.dynamicKeymapEepromAddr + k - (g.dynamicKeymapEepromAddr + offset.toNat) =
    k - offset.toNat by omega]
  simp only [e]

theorem bulk_get_cell {layer row column : UInt8} (h : KeyInRange g.toDims layer row column) :
    (∀ i, i < size.toNat → offset.toNat + i = cellOffset g.toDims layer row column →
      dynamicKeymapGetBuffer g.toDims m offset size data ram (data + i) =
        hiByte (dynamicKeymapGetKeycode g.toDims m layer row column)) ∧
    (∀ i, i < size.toNat → offset.toNat + i = cellOffset g.toDims layer row column + 1 →
      dynamicKeymapGetBuffer g.toDims m offset size data ram (data + i) =
        loByte (dynamicKeymapGetKeycode g.toDims m layer row column)) := by
  have hlt := cellOffset_lt h
  constructor
  · intro i hi he
    rw [getBuffer_apply, if_pos (by omega), Nat.add_sub_cancel_left, he, if_pos (by omega),
      hiByte_getKeycode h, Nat.add_assoc, he]
  · intro i hi he
    rw [getBuffer_apply, if_pos (by omega), Nat.add_sub_cancel_left, he, if_pos (by omega),
      loByte_getKeycode h, Nat.add_assoc, he, Nat.add_assoc]

/-- Each cell after an accepted packet: a byte the packet covers is the packet's, the other byte
stays. -/
theorem bulk_set_cell {layer row column : UInt8} (h : KeyInRange g.toDims layer row column)
    (hk : InKeymap g.toDims offset size) :
    dynamicKeymapGetKeycode g.toDims
        (bufferWrite g.dynamicKeymapEepromAddr offset.toNat g.dynamicKeymapEepromSize data m ram
          size.toNat) layer row column =
      beWord
        (bulkByte offset size data ram (cellOffset g.toDims layer row column)
          (hiByte (dynamicKeymapGetKeycode g.toDims m layer row column)))
        (bulkByte offset size data ram (cellOffset g.toDims layer row column + 1)
          (loByte (dynamicKeymapGetKeycode g.toDims m layer row column))) := by
  rw [getKeycode_bytes h, bufferWrite_keymapByte hk, Nat.add_assoc, bufferWrite_keymapByte hk,
    hiByte_getKeycode h, loByte_getKeycode h, Nat.add_assoc]

theorem bulk_set_other {s : Slot} (hs : s.Valid g) (ht : s.table ≠ .key)
    (hk : InKeymap g.toDims offset size) :
    s.get g (bufferWrite g.dynamicKeymapEepromAddr offset.toNat g.dynamicKeymapEepromSize data m ram
      size.toNat) = s.get g m := by
  refine Slot.get_congr hs fun x hbase _ => ?_
  have hr : Table.key.rank < s.table.rank := by
    cases h : s.table <;> first | exact absurd h ht | decide
  have hc := region_chain g.toDims hr
  have hstop : (g.region .key).stop = g.dynamicKeymapEepromAddr + g.dynamicKeymapEepromSize := rfl
  have hsize := hk.2
  rw [bufferWrite_inKeymap hk, if_neg (by omega)]

/-- A whole cell sent as a two-byte packet to an unlocked board is `dynamic_keymap_set_keycode`. -/
theorem bulk_set_eq_setKeycode {layer row column : UInt8}
    (h : KeyInRange g.toDims layer row column)
    (ho : offset.toNat = cellOffset g.toDims layer row column) :
    (dynamicKeymapSetBuffer g.toDims true m offset 2 data ram).1 =
      dynamicKeymapSetKeycode g.toDims m layer row column (beWord (ram data) (ram (data + 1))) := by
  have hlt := cellOffset_lt h
  have h2 : (2 : UInt16).toNat = 0 + 1 + 1 := rfl
  have hk : InKeymap g.toDims offset 2 := by
    constructor
    · omega
    · rw [h2]; omega
  have ha : dynamicKeymapKeyToEepromAddress g.toDims layer row column =
      g.dynamicKeymapEepromAddr + offset.toNat := by rw [ho, Slot.keyAddress_eq]; rfl
  rw [setBuffer_of_inKeymap hk, dynamicKeymapSetKeycode, if_pos h, h2]
  simp only [if_true, bufferWrite, hiByte_beWord, loByte_beWord, ha]
  rw [if_pos (by omega), if_pos (by omega)]
  rfl

end Bulk

/-- **The EEPROM layout is a product of independent slots.** For every geometry that compiles: what
a slot's setter writes its getter reads, every other slot reads as before; and the bulk views read
and write exactly the big-endian cells, a packet outside the keymap being ignored. -/
theorem eeprom_slots_independent (g : Geometry) (m : EepromMem) :
    (∀ (s : Slot), s.Valid g → ∀ v : s.Value,
      s.get g (s.set g m v) = some v ∧
      ∀ t : Slot, t.Valid g → t ≠ s → t.get g (s.set g m v) = t.get g m) ∧
    (∀ (offset size : UInt16) (data : Nat) (ram : Ram),
      (∀ layer row column, KeyInRange g.toDims layer row column → ∀ i, i < size.toNat →
        (offset.toNat + i = cellOffset g.toDims layer row column →
          dynamicKeymapGetBuffer g.toDims m offset size data ram (data + i) =
            hiByte (dynamicKeymapGetKeycode g.toDims m layer row column)) ∧
        (offset.toNat + i = cellOffset g.toDims layer row column + 1 →
          dynamicKeymapGetBuffer g.toDims m offset size data ram (data + i) =
            loByte (dynamicKeymapGetKeycode g.toDims m layer row column))) ∧
      (∀ i, i < size.toNat → g.dynamicKeymapEepromSize ≤ offset.toNat + i →
        dynamicKeymapGetBuffer g.toDims m offset size data ram (data + i) = 0) ∧
      (¬ InKeymap g.toDims offset size →
        (dynamicKeymapSetBuffer g.toDims true m offset size data ram).1 = m) ∧
      (InKeymap g.toDims offset size →
        (∀ layer row column, KeyInRange g.toDims layer row column →
          dynamicKeymapGetKeycode g.toDims
              (dynamicKeymapSetBuffer g.toDims true m offset size data ram).1 layer row column =
            beWord
              (bulkByte offset size data ram (cellOffset g.toDims layer row column)
                (hiByte (dynamicKeymapGetKeycode g.toDims m layer row column)))
              (bulkByte offset size data ram (cellOffset g.toDims layer row column + 1)
                (loByte (dynamicKeymapGetKeycode g.toDims m layer row column)))) ∧
        (∀ s : Slot, s.Valid g → s.table ≠ .key →
          s.get g (dynamicKeymapSetBuffer g.toDims true m offset size data ram).1 = s.get g m)) ∧
      (∀ layer row column, KeyInRange g.toDims layer row column →
        offset.toNat = cellOffset g.toDims layer row column →
        (dynamicKeymapSetBuffer g.toDims true m offset 2 data ram).1 =
          dynamicKeymapSetKeycode g.toDims m layer row column
            (beWord (ram data) (ram (data + 1))))) := by
  refine ⟨fun s hs v => ⟨?_, fun t ht hne => ?_⟩, fun offset size data ram => ⟨?_, ?_, ?_, ?_, ?_⟩⟩
  · exact Slot.get_set_self hs m v
  · exact Slot.get_set_of_ne ht hne m v
  · intro layer row column h i hi
    exact ⟨(bulk_get_cell h).1 i hi, (bulk_get_cell h).2 i hi⟩
  · intro i hi hout
    rw [getBuffer_apply, if_pos (by omega), Nat.add_sub_cancel_left, if_neg (by omega)]
  · intro h
    rw [setBuffer_of_not_inKeymap h]
  · intro hk
    rw [setBuffer_of_inKeymap hk]
    exact ⟨fun layer row column h => bulk_set_cell h hk, fun s hs ht => bulk_set_other hs ht hk⟩
  · intro layer row column h ho
    exact bulk_set_eq_setKeycode h ho

end Eeprom
end VialQmk
