import VialQmk.Eeprom.DynamicKeymap
import VialQmk.Lib.Layout

/-!
# Eeprom.Slots

The EEPROM as a product of independent slots. A `Slot` is anything one accessor of
`dynamic_keymap.c` addresses; `Slot.get` and `Slot.set` are those accessors.

* `Table`: the seven tables, chained by `Dims.region` (`region_chain`).
* `Slot.field`: where a slot lies. Valid distinct slots have disjoint fields (`field_disjoint`),
  and on valid slots the accessors read and write exactly that field (`get_eq`, `set_eq`).
* `bulk_get_cell`, `bulk_set_cell`: the bulk views of the keymap, seen through its cells.
-/

namespace VialQmk
namespace Eeprom

open Lib

inductive Table where
  | key | encoder | setting | tapDance | combo | keyOverride | macroByte
  deriving DecidableEq, Repr

def Table.rank : Table → Nat
  | .key => 0
  | .encoder => 1
  | .setting => 2
  | .tapDance => 3
  | .combo => 4
  | .keyOverride => 5
  | .macroByte => 6

def Dims.region (d : Dims) : Table → Region
  | .key => ⟨d.dynamicKeymapEepromAddr, 2, d.layerCount * d.matrixRows * d.matrixCols⟩
  | .encoder => ⟨d.vialEncodersEepromAddr, 2, d.layerCount * d.numEncoders * 2⟩
  | .setting => ⟨d.vialQmkSettingsEepromAddr, 1, vialQmkSettingsSize⟩
  | .tapDance => ⟨d.vialTapDanceEepromAddr, 10, d.tapDanceEntries⟩
  | .combo => ⟨d.vialComboEepromAddr, 10, d.comboEntries⟩
  | .keyOverride => ⟨d.vialKeyOverrideEepromAddr, 10, d.keyOverrideEntries⟩
  | .macroByte => ⟨d.dynamicKeymapMacroEepromAddr, 1, d.dynamicKeymapMacroEepromSize⟩

theorem region_chain (d : Dims) {t u : Table} (h : t.rank < u.rank) :
    (d.region t).stop ≤ (d.region u).base := by
  have he : d.layerCount * d.numEncoders * 2 * 2 = d.vialEncodersSize := by
    rw [Dims.vialEncodersSize, Nat.mul_comm d.layerCount]
  cases t <;> cases u <;>
    simp only [Table.rank] at h <;>
    first
      | omega
      | (simp only [Dims.region, Region.stop, he, Dims.dynamicKeymapMacroEepromAddr,
          Dims.vialKeyOverrideEepromAddr, Dims.vialComboEepromAddr, Dims.vialTapDanceEepromAddr,
          Dims.vialQmkSettingsEepromAddr, Dims.vialEncodersEepromAddr, Dims.dynamicKeymapEepromSize,
          Dims.vialTapDanceSize, Dims.vialComboSize, Dims.vialKeyOverrideSize]
         omega)

theorem rank_injective : Function.Injective Table.rank := by
  intro t u h
  cases t <;> cases u <;> first | rfl | cases h

theorem keymap_le_base (d : Dims) (t : Table) : d.dynamicKeymapEepromAddr ≤ (d.region t).base := by
  by_cases h : t = .key
  · rw [h]
    exact Nat.le_refl _
  · have hr : Table.key.rank < t.rank := by
      cases t <;> first | exact absurd rfl h | decide
    exact (Region.base_le_stop _).trans (region_chain d hr)

inductive Slot where
  | key (layer row column : UInt8)
  | encoder (layer encoderId : UInt8) (clockwise : Bool)
  | setting (offset : UInt16)
  | tapDance (index : UInt8)
  | combo (index : UInt8)
  | keyOverride (index : UInt8)
  | macroByte (offset : UInt16)
  deriving DecidableEq, Repr

namespace Slot

def table : Slot → Table
  | .key .. => .key
  | .encoder .. => .encoder
  | .setting _ => .setting
  | .tapDance _ => .tapDance
  | .combo _ => .combo
  | .keyOverride _ => .keyOverride
  | .macroByte _ => .macroByte

abbrev Value : Slot → Type
  | .key .. | .encoder .. => UInt16
  | .setting _ | .macroByte _ => UInt8
  | .tapDance _ => VialTapDanceEntry
  | .combo _ => VialComboEntry
  | .keyOverride _ => VialKeyOverrideEntry

def Valid (g : Geometry) : Slot → Prop
  | .key layer row column => KeyInRange g.toDims layer row column
  | .encoder layer encoderId _ => EncoderInRange g.toDims layer encoderId
  | .setting offset => offset.toNat < vialQmkSettingsSize
  | .tapDance index => index.toNat < g.tapDanceEntries
  | .combo index => index.toNat < g.comboEntries
  | .keyOverride index => index.toNat < g.keyOverrideEntries
  | .macroByte offset => offset.toNat < g.dynamicKeymapMacroEepromSize

def ofStatus {α : Type} (r : Int × α) : Option α := if r.1 = 0 then some r.2 else none

/-- What the slot's getter returns. A macro byte is read by a one-byte `get_buffer`. -/
def get (g : Geometry) (m : EepromMem) : (s : Slot) → Option s.Value
  | .key layer row column => some (dynamicKeymapGetKeycode g.toDims m layer row column)
  | .encoder layer id clockwise => some (dynamicKeymapGetEncoder g.toDims m layer id clockwise)
  | .setting offset => some (dynamicKeymapGetQmkSettings g.toDims m offset)
  | .tapDance index => ofStatus (dynamicKeymapGetTapDance g.toDims m index default)
  | .combo index => ofStatus (dynamicKeymapGetCombo g.toDims m index default)
  | .keyOverride index => ofStatus (dynamicKeymapGetKeyOverride g.toDims m index default)
  | .macroByte offset => some (dynamicKeymapMacroGetBuffer g.toDims m offset 1 0 (fun _ => 0) 0)

def set (g : Geometry) (m : EepromMem) : (s : Slot) → s.Value → EepromMem
  | .key layer row column, k => dynamicKeymapSetKeycode g.toDims m layer row column k
  | .encoder layer id clockwise, k => dynamicKeymapSetEncoder g.toDims m layer id clockwise k
  | .setting offset, v => dynamicKeymapSetQmkSettings g.toDims m offset v
  | .tapDance index, e => (dynamicKeymapSetTapDance g.toDims m index e).2
  | .combo index, e => (dynamicKeymapSetCombo g.toDims m index e).2
  | .keyOverride index, e => (dynamicKeymapSetKeyOverride g.toDims m index e).2
  | .macroByte offset, v => dynamicKeymapMacroSetBuffer g.toDims m offset 1 0 (fun _ => v)

def codec : (s : Slot) → Codec UInt8 s.Value
  | .key .. | .encoder .. => beCodec
  | .setting _ | .macroByte _ => byteCodec
  | .tapDance _ => VialTapDanceEntry.codec
  | .combo _ => VialComboEntry.codec
  | .keyOverride _ => VialKeyOverrideEntry.codec

def index (d : Dims) : Slot → Nat
  | .key layer row column =>
    (layer.toNat * d.matrixRows + row.toNat) * d.matrixCols + column.toNat
  | .encoder layer id clockwise =>
    (layer.toNat * d.numEncoders + id.toNat) * 2 + (if clockwise then 0 else 1)
  | .setting offset | .macroByte offset => offset.toNat
  | .tapDance i | .combo i | .keyOverride i => i.toNat

def field (d : Dims) (s : Slot) : Field UInt8 s.Value :=
  ⟨(d.region s.table).addr (s.index d), s.codec⟩

theorem codec_size (d : Dims) (s : Slot) : s.codec.size = (d.region s.table).width := by
  cases s <;> rfl

variable {g : Geometry} {s : Slot}

theorem index_lt_count (h : s.Valid g) : s.index g.toDims < (g.region s.table).count := by
  cases s with
  | key layer row column => exact index_lt (index_lt h.1 h.2.1) h.2.2
  | encoder layer id clockwise =>
    refine index_lt (index_lt h.1 h.2) ?_
    split <;> omega
  | setting _ | tapDance _ | combo _ | keyOverride _ | macroByte _ => exact h

theorem index_injective {t : Slot} (hs : s.Valid g) (ht : t.Valid g) (htab : s.table = t.table)
    (h : s.index g.toDims = t.index g.toDims) : s = t := by
  cases s <;> cases t <;> first | cases htab; done | skip
  case key.key l r c l' r' c' =>
    obtain ⟨h, hc⟩ := index_inj hs.2.2 ht.2.2 h
    obtain ⟨hl, hr⟩ := index_inj hs.2.1 ht.2.1 h
    rw [UInt8.toNat_inj.mp hl, UInt8.toNat_inj.mp hr, UInt8.toNat_inj.mp hc]
  case encoder.encoder l i cw l' i' cw' =>
    obtain ⟨h, hcw⟩ := index_inj (by split <;> omega) (by split <;> omega) h
    obtain ⟨hl, hi⟩ := index_inj hs.2 ht.2 h
    have hcw : cw = cw' := by cases cw <;> cases cw' <;> first | rfl | cases hcw
    rw [UInt8.toNat_inj.mp hl, UInt8.toNat_inj.mp hi, hcw]
  case setting.setting | macroByte.macroByte => exact congrArg _ (UInt16.toNat_inj.mp h)
  case tapDance.tapDance | combo.combo | keyOverride.keyOverride =>
    exact congrArg _ (UInt8.toNat_inj.mp h)

/-- Distinct slots lie in disjoint blocks: in one table by their index, in two tables because the
tables are chained. -/
theorem field_disjoint {t : Slot} (hs : s.Valid g) (ht : t.Valid g) (h : s ≠ t) :
    (s.field g.toDims).Disjoint (t.field g.toDims) := by
  have hcs : s.codec.size = (g.region s.table).width := codec_size g.toDims s
  have hct : t.codec.size = (g.region t.table).width := codec_size g.toDims t
  simp only [Field.Disjoint, field, hcs, hct]
  rcases Nat.lt_trichotomy s.table.rank t.table.rank with hr | hr | hr
  · exact .inl (Region.addr_le_of_chain (region_chain _ hr) (index_lt_count hs))
  · have htab := rank_injective hr
    rw [← htab]
    refine Region.addr_disjoint fun he => h (index_injective hs ht htab he)
  · exact .inr (Region.addr_le_of_chain (region_chain _ hr) (index_lt_count ht))

theorem keyAddress_eq (d : Dims) (layer row column : UInt8) :
    dynamicKeymapKeyToEepromAddress d layer row column =
      (d.region .key).addr ((Slot.key layer row column).index d) := by
  simp only [dynamicKeymapKeyToEepromAddress, Dims.region, Region.addr, index]
  ring

theorem encoderAddress_eq (d : Dims) (layer id : UInt8) (clockwise : Bool) :
    dynamicKeymapEncoderToEepromAddress d layer id + (if clockwise then 0 else 2) =
      (d.region .encoder).addr ((Slot.encoder layer id clockwise).index d) := by
  cases clockwise <;>
    simp only [dynamicKeymapEncoderToEepromAddress, Dims.region, Region.addr, index, if_true,
      Bool.false_eq_true, if_false] <;>
    ring

theorem getKeycode_eq {d : Dims} {layer row column : UInt8} (h : KeyInRange d layer row column)
    (m : EepromMem) : dynamicKeymapGetKeycode d m layer row column =
      ((Slot.key layer row column).field d).get m := by
  rw [dynamicKeymapGetKeycode, if_pos h, keyAddress_eq]; rfl

theorem setKeycode_eq {d : Dims} {layer row column : UInt8} (h : KeyInRange d layer row column)
    (m : EepromMem) (k : UInt16) : dynamicKeymapSetKeycode d m layer row column k =
      ((Slot.key layer row column).field d).set m k := by
  rw [dynamicKeymapSetKeycode, if_pos h, keyAddress_eq]; rfl

theorem getEncoder_eq {d : Dims} {layer id : UInt8} (h : EncoderInRange d layer id)
    (m : EepromMem) (clockwise : Bool) : dynamicKeymapGetEncoder d m layer id clockwise =
      ((Slot.encoder layer id clockwise).field d).get m := by
  simp only [dynamicKeymapGetEncoder, if_pos h, encoderAddress_eq]
  rfl

theorem setEncoder_eq {d : Dims} {layer id : UInt8} (h : EncoderInRange d layer id)
    (m : EepromMem) (clockwise : Bool) (k : UInt16) :
    dynamicKeymapSetEncoder d m layer id clockwise k =
      ((Slot.encoder layer id clockwise).field d).set m k := by
  simp only [dynamicKeymapSetEncoder, if_pos h, encoderAddress_eq]
  rfl

theorem get_eq (h : s.Valid g) (m : EepromMem) : s.get g m = some ((s.field g.toDims).get m) := by
  cases s with
  | key layer row column => exact congrArg some (getKeycode_eq h m)
  | encoder layer id clockwise => exact congrArg some (getEncoder_eq h m clockwise)
  | setting offset =>
    refine congrArg some ?_
    rw [dynamicKeymapGetQmkSettings, if_neg (Nat.not_le.mpr h)]
    simp [field, Field.get, codec, byteCodec, Mem.readBlock, Dims.region, Region.addr, index, table]
  | tapDance i | combo i | keyOverride i =>
    simp only [get, dynamicKeymapGetTapDance, dynamicKeymapGetCombo, dynamicKeymapGetKeyOverride,
      getEntry, if_neg (Nat.not_le.mpr h), ofStatus, if_true]
    rfl
  | macroByte offset =>
    refine congrArg some ?_
    have h' : offset.toNat + (0 - 0) < g.dynamicKeymapMacroEepromSize := h
    rw [dynamicKeymapMacroGetBuffer, bufferRead_apply, if_pos (by decide), if_pos h']
    simp [field, Field.get, codec, byteCodec, Mem.readBlock, Dims.region, Region.addr, index, table]

theorem set_eq (h : s.Valid g) (m : EepromMem) (v : s.Value) : s.set g m v = (s.field g.toDims).set m v := by
  cases s with
  | key layer row column => exact setKeycode_eq h m v
  | encoder layer id clockwise => exact setEncoder_eq h m clockwise v
  | setting offset =>
    rw [set, dynamicKeymapSetQmkSettings, if_neg (Nat.not_le.mpr h)]
    simp [field, Field.set, codec, byteCodec, Mem.writeBlock, Dims.region, Region.addr, index,
      table, eepromUpdateByte]
  | tapDance i | combo i | keyOverride i =>
    simp only [set, dynamicKeymapSetTapDance, dynamicKeymapSetCombo, dynamicKeymapSetKeyOverride,
      setEntry, if_neg (Nat.not_le.mpr h)]
    rfl
  | macroByte offset =>
    have h' : offset.toNat + 0 < g.dynamicKeymapMacroEepromSize := h
    have e : (1 : UInt16).toNat = 0 + 1 := rfl
    rw [set, dynamicKeymapMacroSetBuffer, e, bufferWrite, if_pos h', bufferWrite]
    simp [field, Field.set, codec, byteCodec, Mem.writeBlock, Dims.region, Region.addr, index,
      table, eepromUpdateByte]

theorem set_of_not_valid (h : ¬ s.Valid g) (m : EepromMem) (v : s.Value) : s.set g m v = m := by
  cases s with
  | key layer row column => exact if_neg h
  | encoder layer id clockwise => exact if_neg h
  | setting offset => exact if_pos (Nat.le_of_not_lt h)
  | tapDance i | combo i | keyOverride i =>
    simp only [set, dynamicKeymapSetTapDance, dynamicKeymapSetCombo, dynamicKeymapSetKeyOverride,
      setEntry, if_pos (Nat.le_of_not_lt h)]
  | macroByte offset =>
    have h' : ¬ offset.toNat + 0 < g.dynamicKeymapMacroEepromSize := h
    have e : (1 : UInt16).toNat = 0 + 1 := rfl
    rw [set, dynamicKeymapMacroSetBuffer, e, bufferWrite, if_neg h', bufferWrite]

theorem get_entry_of_not_valid (h : ¬ s.Valid g)
    (ht : s.table = .tapDance ∨ s.table = .combo ∨ s.table = .keyOverride) (m : EepromMem) : s.get g m = none := by
  cases s with
  | key _ _ _ | encoder _ _ _ | setting _ | macroByte _ => simp [table] at ht
  | tapDance i | combo i | keyOverride i =>
    simp only [get, dynamicKeymapGetTapDance, dynamicKeymapGetCombo, dynamicKeymapGetKeyOverride,
      getEntry, if_pos (Nat.le_of_not_lt h), ofStatus]
    rfl

theorem get_set_self (h : s.Valid g) (m : EepromMem) (v : s.Value) : s.get g (s.set g m v) = some v := by
  rw [set_eq h, get_eq h, Field.get_set]

theorem get_set_of_ne {t : Slot} (hs : s.Valid g) (hne : s ≠ t) (m : EepromMem) (v : t.Value) :
    s.get g (t.set g m v) = s.get g m := by
  by_cases ht : t.Valid g
  · rw [set_eq ht, get_eq hs, get_eq hs, Field.get_set_of_disjoint (field_disjoint ht hs hne.symm)]
  · rw [set_of_not_valid ht]

theorem get_congr (hs : s.Valid g) {m m' : EepromMem}
    (h : ∀ x, (g.region s.table).base ≤ x → x < (g.region s.table).stop → m' x = m x) : s.get g m' = s.get g m := by
  rw [get_eq hs, get_eq hs]
  refine congrArg (fun v => some (s.codec.dec v)) (Mem.readBlock_congr fun i hi => h _ ?_ ?_)
  · have hb : (g.region s.table).base ≤ (s.field g.toDims).addr := Region.base_le_addr _ _
    omega
  · have hstop := Region.addr_add_width_le_stop (index_lt_count hs)
    have hsize : s.codec.size = (g.region s.table).width := codec_size g.toDims s
    have haddr : (s.field g.toDims).addr = (g.region s.table).addr (s.index g.toDims) := rfl
    have hi : i < s.codec.size := hi
    omega

end Slot
end Eeprom
end VialQmk
