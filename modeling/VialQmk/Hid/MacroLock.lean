import Mathlib.Data.List.Induction
import VialQmk.Hid.Frames

/-!
# Hid.MacroLock

The macro area of a locked board over whole runs. The macro buffer command is refused, and every
other command writes below the area, whatever offset, length or index the host sends, or clears it.

* `Handled.macros_step`: one message keeps every macro byte or clears them all.
* `locked_macros`: so does a whole run.
-/

namespace VialQmk
namespace Hid

open Lib Eeprom

def macroBytes (d : Dims) (m : EepromMem) : List UInt8 :=
  m.readBlock d.dynamicKeymapMacroEepromAddr d.dynamicKeymapMacroEepromSize

def MacrosKept (d : Dims) (m m' : EepromMem) : Prop :=
  macroBytes d m' = macroBytes d m ∨
    macroBytes d m' = List.replicate d.dynamicKeymapMacroEepromSize 0

section Slots

variable {g : Geometry} {m m' : EepromMem}

theorem MacrosKept.trans {d : Dims} {m'' : EepromMem} (h : MacrosKept d m m')
    (h' : MacrosKept d m' m'') : MacrosKept d m m'' := by
  rcases h' with hkept | hclear
  · rcases h with h | h
    · exact .inl (hkept.trans h)
    · exact .inr (hkept.trans h)
  · exact .inr hclear

theorem macroSize_le (g : Geometry) : g.dynamicKeymapMacroEepromSize ≤ 65536 := by
  have h := g.fits
  have h' := g.maxAddr_le
  rw [Dims.dynamicKeymapMacroEepromSize]
  omega

theorem macroByte_get {offset : UInt16} (h : offset.toNat < g.dynamicKeymapMacroEepromSize) :
    Slot.get g m (.macroByte offset) = some (m (g.dynamicKeymapMacroEepromAddr + offset.toNat)) := by
  rw [Slot.get, dynamicKeymapMacroGetBuffer, bufferRead_apply,
    if_pos (show 0 ≤ 0 ∧ 0 < 0 + (1 : UInt16).toNat by decide), if_pos (by omega)]
  rfl

theorem macroBytes_congr (h : ∀ s : Slot, s.Valid g → s.table = .macroByte → s.get g m' = s.get g m) :
    macroBytes g.toDims m' = macroBytes g.toDims m := by
  refine Mem.readBlock_congr fun i hi => ?_
  have hsize := macroSize_le g
  have hoffset : i.toUInt16.toNat = i := by
    have hmod : i.toUInt16.toNat = i % 65536 := UInt16.toNat_ofNat'
    omega
  have hlt : i.toUInt16.toNat < g.dynamicKeymapMacroEepromSize := by omega
  have hslot := h (.macroByte i.toUInt16) hlt rfl
  rw [macroByte_get hlt, macroByte_get hlt, hoffset] at hslot
  exact Option.some.inj hslot

theorem macroBytes_macroReset (m : EepromMem) :
    macroBytes g.toDims (dynamicKeymapMacroReset g.toDims m) =
      List.replicate g.dynamicKeymapMacroEepromSize 0 := by
  apply List.ext_getElem
  · rw [macroBytes, Mem.readBlock_length, List.length_replicate]
  · intro i hi _
    rw [macroBytes, Mem.readBlock_length] at hi
    simp only [macroBytes, Mem.readBlock_getElem, List.getElem_replicate]
    rw [dynamicKeymapMacroReset, macroClear_apply, if_pos (by omega)]

theorem macroBytes_set {t : Slot} (ht : t.table ≠ .macroByte) (v : t.Value) :
    macroBytes g.toDims (t.set g m v) = macroBytes g.toDims m :=
  macroBytes_congr fun s hs hkind =>
    Slot.get_set_of_ne hs (fun h => ht (by rw [← h, hkind])) m v

theorem macroBytes_settings (h : SettingsFrame g.toDims m m') :
    macroBytes g.toDims m' = macroBytes g.toDims m :=
  macroBytes_congr fun s hs hkind =>
    get_of_settingsFrame hs (by rw [hkind]; exact Table.noConfusion) h

end Slots

section Resets

variable {f : Firmware}

theorem macroBytes_entriesReset (m : EepromMem) :
    macroBytes f.dims (entriesReset f m) = macroBytes f.dims m := by
  refine macroBytes_congr (g := f.geometry) fun s hs hkind => ?_
  have hne : ∀ {t : Slot}, t.table ≠ .macroByte → s ≠ t := fun ht h => ht (by rw [← h, hkind])
  have hoverride : ∀ index entry m, s.get f.geometry
      (dynamicKeymapSetKeyOverride f.dims m index entry).2 = s.get f.geometry m :=
    fun index entry m =>
      Slot.get_set_of_ne (t := .keyOverride index) hs (hne Table.noConfusion) m entry
  have hcombo : ∀ index entry m, s.get f.geometry
      (dynamicKeymapSetCombo f.dims m index entry).2 = s.get f.geometry m :=
    fun index entry m => Slot.get_set_of_ne (t := .combo index) hs (hne Table.noConfusion) m entry
  have hdance : ∀ index entry m, s.get f.geometry
      (dynamicKeymapSetTapDance f.dims m index entry).2 = s.get f.geometry m :=
    fun index entry m => Slot.get_set_of_ne (t := .tapDance index) hs (hne Table.noConfusion) m entry
  rw [entriesReset, get_forN _ fun k m => hoverride _ _ _, get_forN _ fun k m => hcombo _ _ _]
  exact get_forN _ fun k m => hdance _ _ _

theorem macroBytes_keymapLayers (n : Nat) (m : EepromMem) :
    macroBytes f.dims (forN n (keymapResetLayer f) m) = macroBytes f.dims m :=
  macroBytes_congr (g := f.geometry) fun s hs hkind => get_forN n fun layer m =>
    get_keymapResetLayer hs (by rw [hkind]; exact Table.noConfusion)
      (by rw [hkind]; exact Table.noConfusion) layer m

theorem macroBytes_dynamicKeymapReset (b : Board) :
    macroBytes f.dims (dynamicKeymapReset f b).eeprom = macroBytes f.dims b.eeprom := by
  have hsettings := macroBytes_settings (g := f.geometry) (qmkSettingsReset_frame f.dims f.settings
    { b.toSettingsState with eeprom := forN f.dims.layerCount (keymapResetLayer f) b.eeprom })
  exact (macroBytes_entriesReset _).trans (hsettings.trans (macroBytes_keymapLayers _ _))

theorem macroBytes_setValid (valid : Bool) (m : EepromMem) :
    macroBytes f.dims (viaEepromSetValid f valid m) = macroBytes f.dims m := by
  refine macroBytes_congr (g := f.geometry) fun s hs _ => get_of_below hs fun x hx => ?_
  have hmagic : f.dims.viaEepromMagicAddr + 3 ≤ f.dims.dynamicKeymapEepromAddr := by
    simp only [Dims.dynamicKeymapEepromAddr, Dims.viaEepromConfigEnd, Dims.viaEepromLayoutOptionsAddr]
    omega
  exact Mem.writeBlock_of_ge (Nat.le_trans hmagic hx)

theorem macroBytes_eeconfigInitVia (b : Board) :
    macroBytes f.dims (eeconfigInitVia f b).eeprom =
      List.replicate f.dims.dynamicKeymapMacroEepromSize 0 :=
  (macroBytes_setValid true _).trans (macroBytes_macroReset (g := f.geometry) _)

end Resets

section Step

variable {f : Firmware} {b b' : Board} {i : HidInput}

theorem Handled.macros_step (h : Handled f b i b') (hb : b.vialUnlocked = false) :
    MacrosKept f.dims b.eeprom b'.eeprom := by
  cases h with
  | reply | bootloaderJump _ _ | unlockStart _ | lock _ => exact .inl rfl
  | unlockPoll _ =>
    obtain ⟨_, _, _, _, hpoll⟩ := vialUnlockPoll_frame f b i
    rw [hpoll]
    exact .inl rfl
  | setLayoutOptions value _ =>
    exact .inl (macroBytes_congr (g := f.geometry) fun s hs _ => get_setLayoutOptions hs value)
  | setKeycode _ _ =>
    exact .inl (macroBytes_set (g := f.geometry) (t := .key (i.data 1) (i.data 2) (i.data 3))
      Table.noConfusion _)
  | keymapReset _ _ => exact .inl (macroBytes_dynamicKeymapReset b)
  | eepromReset _ _ => exact .inr (macroBytes_eeconfigInitVia _)
  | macroSetBuffer hunlocked _ =>
    rw [hb] at hunlocked
    cases hunlocked
  | macroReset _ => exact .inr (macroBytes_macroReset (g := f.geometry) _)
  | setBuffer _ =>
    exact .inl (macroBytes_congr (g := f.geometry) fun s hs hkind =>
      setBuffer_other hs (by rw [hkind]; exact Table.noConfusion))
  | setEncoder _ =>
    exact .inl (macroBytes_set (g := f.geometry)
      (t := .encoder (i.data 2) (i.data 3) (i.data 4 ≠ 0)) Table.noConfusion _)
  | settingsSet qsid maxsz _ =>
    exact .inl (macroBytes_settings (g := f.geometry) (qmkSettingsSet_frame _ _ _ _ _ _ _))
  | settingsReset _ =>
    exact .inl (macroBytes_settings (g := f.geometry) (qmkSettingsReset_frame _ _ _))
  | tapDanceSet entry _ =>
    exact .inl (macroBytes_set (g := f.geometry) (t := .tapDance (i.data 3)) Table.noConfusion _)
  | comboSet entry _ =>
    exact .inl (macroBytes_set (g := f.geometry) (t := .combo (i.data 3)) Table.noConfusion
      (b.firewallCombo entry))
  | keyOverrideSet entry _ =>
    exact .inl (macroBytes_set (g := f.geometry) (t := .keyOverride (i.data 3)) Table.noConfusion
      (b.firewallKeyOverride entry))

end Step

/-- **No macro for a locked board.** While a board stays locked, no message, with any offset, length or
index, changes a byte of the macro area, except that a macro or EEPROM reset clears them all. -/
theorem locked_macros (f : Firmware) (b : Board) (is : List HidInput)
    (hlocked : ∀ pre, pre <+: is → (run f b pre).vialUnlocked = false) :
    MacrosKept f.dims b.eeprom (run f b is).eeprom := by
  induction is using List.reverseRecOn with
  | nil => exact .inl rfl
  | append_singleton is i ih =>
    have hpre := ih fun pre hpre => hlocked pre (hpre.trans (List.prefix_append is [i]))
    rw [run_append_singleton]
    exact hpre.trans ((rawHidReceive_handled f (run f b is) i).macros_step
      (hlocked is (List.prefix_append is [i])))

/-- A macro buffer command to the locked pad, then a bulk keymap packet at the end of the keymap. -/
def macroWriteRun : List HidInput :=
  [.ofBytes [0x0F, 0, 0, 4, 0x61, 0x62, 0x63, 0] 0, .ofBytes [0x13, 0, 1, 28, 0x61, 0x62] 0]

theorem locked_macros_onePad :
    MacrosKept Firmware.onePad.dims Board.blank.eeprom
      (run .onePad .blank macroWriteRun).eeprom := by
  refine locked_macros .onePad .blank macroWriteRun fun pre hpre => ?_
  simp only [macroWriteRun, List.prefix_cons_iff, List.prefix_nil] at hpre
  rcases hpre with rfl | ⟨_, rfl, rfl | ⟨_, rfl, rfl⟩⟩ <;> rfl

end Hid
end VialQmk
