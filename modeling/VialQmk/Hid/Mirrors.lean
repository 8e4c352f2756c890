import Mathlib.Data.List.Induction
import VialQmk.Hid.Frames
import VialQmk.Hid.Init

/-!
# Hid.Mirrors

The RAM tables of combos and key overrides against the EEPROM entries they are loaded from. A set
command reloads its table; `dynamic_keymap_reset` rewrites the entries and reloads nothing, and the
first reset of all runs in `via_init`, after `vial_init` has loaded the tables.

* `Handled.mirrors_step`: one message keeps the tables in step, unless it is a reset.
* `mirrors_run`: exactly when they are in step through a whole run.
-/

namespace VialQmk
namespace Hid

open Lib Eeprom

section Defs

variable (f : Firmware)

/-- What `reload_combo` makes of the entry that `dynamic_keymap_get_combo` returns. -/
def decodeCombo (m : EepromMem) (i : Nat) : ComboTableRow :=
  let entry := (dynamicKeymapGetCombo f.dims m i.toUInt8 default).2
  ⟨entry.input.push 0, entry.output⟩

/-- What `reload_key_override` makes of the entry that `dynamic_keymap_get_key_override` returns. -/
def decodeKeyOverride (m : EepromMem) (i : Nat) : KeyOverride :=
  (vialGetKeyOverride f m i.toUInt8 {}).2

def Mirrors (b : Board) : Prop :=
  (∀ i, i < f.dims.comboEntries → b.keyCombos i = decodeCombo f b.eeprom i) ∧
    ∀ i, i < f.dims.keyOverrideEntries → b.vialKeyOverrides i = decodeKeyOverride f b.eeprom i

/-- All combos and key overrides read as `dynamic_keymap_reset` leaves them. -/
def EntriesAtReset (m : EepromMem) : Prop :=
  (∀ i, i < f.dims.comboEntries → decodeCombo f m i = ⟨.replicate 5 0, 0⟩) ∧
    ∀ i, i < f.dims.keyOverrideEntries →
      decodeKeyOverride f m i = { layers := 0xFFFF, options := 0x07, enabled := false }

def Resets (b : Board) (i : HidInput) : Prop :=
  b.vialUnlockInProgress = false ∧
    (i.IsVia .dynamicKeymapReset ∨ (i.IsVia .eepromReset ∧ f.viaEepromAllowReset = true))

end Defs

section Entries

variable {f : Firmware} {m m' : EepromMem}

def MirroredSlot (s : Slot) : Prop := s.table = .combo ∨ s.table = .keyOverride

def SameEntries (f : Firmware) (m m' : EepromMem) : Prop :=
  ∀ s : Slot, s.Valid f.geometry → MirroredSlot s → s.get f.geometry m' = s.get f.geometry m

theorem index_valid {n i : Nat} (h : i < n) : i.toUInt8.toNat < n := by
  have hmod : i.toUInt8.toNat = i % 256 := UInt8.toNat_ofNat'
  omega

theorem getCombo_of_get {i : UInt8} (h : i.toNat < f.dims.comboEntries) {entry : VialComboEntry}
    (hget : Slot.get f.geometry m (.combo i) = some entry) :
    dynamicKeymapGetCombo f.dims m i default = (0, entry) := by
  simp only [Slot.get, Slot.ofStatus, dynamicKeymapGetCombo, getEntry, if_neg (Nat.not_le.mpr h)] at hget ⊢
  rw [if_pos trivial] at hget
  exact congrArg _ (Option.some.inj hget)

theorem getKeyOverride_of_get {i : UInt8} (h : i.toNat < f.dims.keyOverrideEntries)
    {entry : VialKeyOverrideEntry} (hget : Slot.get f.geometry m (.keyOverride i) = some entry) :
    dynamicKeymapGetKeyOverride f.dims m i default = (0, entry) := by
  simp only [Slot.get, Slot.ofStatus, dynamicKeymapGetKeyOverride, getEntry,
    if_neg (Nat.not_le.mpr h)] at hget ⊢
  rw [if_pos trivial] at hget
  exact congrArg _ (Option.some.inj hget)

theorem getCombo_congr (h : SameEntries f m m') {i : UInt8} (hi : i.toNat < f.dims.comboEntries) :
    dynamicKeymapGetCombo f.dims m' i default = dynamicKeymapGetCombo f.dims m i default := by
  have hsame := h (.combo i) hi (.inl rfl)
  rw [Slot.get_eq (s := .combo i) hi m] at hsame
  rw [getCombo_of_get hi hsame, getCombo_of_get hi (Slot.get_eq (s := .combo i) hi m)]

theorem getKeyOverride_congr (h : SameEntries f m m') {i : UInt8}
    (hi : i.toNat < f.dims.keyOverrideEntries) :
    dynamicKeymapGetKeyOverride f.dims m' i default = dynamicKeymapGetKeyOverride f.dims m i default := by
  have hsame := h (.keyOverride i) hi (.inr rfl)
  rw [Slot.get_eq (s := .keyOverride i) hi m] at hsame
  rw [getKeyOverride_of_get hi hsame, getKeyOverride_of_get hi (Slot.get_eq (s := .keyOverride i) hi m)]

theorem decodeCombo_congr (h : SameEntries f m m') {i : Nat} (hi : i < f.dims.comboEntries) :
    decodeCombo f m' i = decodeCombo f m i := by
  rw [decodeCombo, decodeCombo, getCombo_congr h (index_valid hi)]

theorem decodeKeyOverride_congr (h : SameEntries f m m') {i : Nat} (hi : i < f.dims.keyOverrideEntries) :
    decodeKeyOverride f m' i = decodeKeyOverride f m i := by
  rw [decodeKeyOverride, decodeKeyOverride, vialGetKeyOverride, vialGetKeyOverride,
    getKeyOverride_congr h (index_valid hi)]

theorem SameEntries.refl : SameEntries f m m := fun _ _ _ => rfl

theorem sameEntries_set {t : Slot} (ht : ¬ MirroredSlot t) (v : t.Value) :
    SameEntries f m (t.set f.geometry m v) := by
  intro s hs hmirrored
  refine Slot.get_set_of_ne hs ?_ m v
  rintro rfl
  exact ht hmirrored

theorem MirroredSlot.ne {s : Slot} (h : MirroredSlot s) :
    s.table ≠ .key ∧ s.table ≠ .encoder ∧ s.table ≠ .setting ∧ s.table ≠ .macroByte := by
  rcases h with h | h <;> rw [h] <;> decide

end Entries

section Reset

variable (f : Firmware) (b : Board)

theorem reloadCombo_mirrors {i : Nat} (hi : i < f.dims.comboEntries) :
    (reloadCombo f b).keyCombos i = decodeCombo f b.eeprom i := by
  have hstatus : (dynamicKeymapGetCombo f.dims b.eeprom i.toUInt8 default).1 = 0 := by
    rw [dynamicKeymapGetCombo, getEntry, if_neg (Nat.not_le.mpr (index_valid hi))]
  simp only [reloadCombo]
  rw [if_pos ⟨hi, hstatus⟩]
  rfl

theorem reloadKeyOverride_mirrors {i : Nat} (hi : i < f.dims.keyOverrideEntries) :
    (reloadKeyOverride f b).vialKeyOverrides i = decodeKeyOverride f b.eeprom i := by
  have hstatus : (dynamicKeymapGetKeyOverride f.dims b.eeprom i.toUInt8 default).1 = 0 := by
    rw [dynamicKeymapGetKeyOverride, getEntry, if_neg (Nat.not_le.mpr (index_valid hi))]
  simp only [reloadKeyOverride]
  rw [if_pos hi, decodeKeyOverride]
  simp only [vialGetKeyOverride, hstatus, ne_eq, not_true_eq_false, if_false]

theorem vialInit_mirrors : Mirrors f (vialInit f b) :=
  ⟨fun _ hi => reloadCombo_mirrors f b hi, fun _ hi => reloadKeyOverride_mirrors f (reloadCombo f b) hi⟩

structure SameTables (b b' : Board) : Prop where
  keyCombos : b'.keyCombos = b.keyCombos
  vialKeyOverrides : b'.vialKeyOverrides = b.vialKeyOverrides

theorem Mirrors.congr {f : Firmware} {b b' : Board} (h : Mirrors f b) (hram : SameTables b b')
    (heeprom : SameEntries f b.eeprom b'.eeprom) : Mirrors f b' := by
  refine ⟨fun i hi => ?_, fun i hi => ?_⟩
  · rw [hram.keyCombos, decodeCombo_congr heeprom hi]
    exact h.1 i hi
  · rw [hram.vialKeyOverrides, decodeKeyOverride_congr heeprom hi]
    exact h.2 i hi

theorem entriesReset_atReset (m : EepromMem) : EntriesAtReset f (entriesReset f m) := by
  have hcombo : ∀ i : UInt8, i.toNat < f.dims.comboEntries →
      Slot.get f.geometry (entriesReset f m) (.combo i) = some ⟨#v[0, 0, 0, 0], 0⟩ := by
    intro i hi
    have hv : Slot.Valid f.geometry (.combo i) := hi
    -- the loop over the key overrides comes after the one over the combos
    refine (get_forN _ fun k m => ?_).trans ?_
    · exact Slot.get_set_of_ne (t := .keyOverride k.toUInt8) hv Slot.noConfusion m _
    · exact get_forN_set .combo (fun _ _ h => Slot.combo.inj h) (fun _ => ⟨#v[0, 0, 0, 0], 0⟩) hv hi
  have hoverride : ∀ i : UInt8, i.toNat < f.dims.keyOverrideEntries →
      Slot.get f.geometry (entriesReset f m) (.keyOverride i) = some ⟨0, 0, 0xFFFF, 0, 0, 0, 0x07⟩ := by
    intro i hi
    have hv : Slot.Valid f.geometry (.keyOverride i) := hi
    exact get_forN_set .keyOverride (fun _ _ h => Slot.keyOverride.inj h)
      (fun _ => ⟨0, 0, 0xFFFF, 0, 0, 0, 0x07⟩) hv hi
  refine ⟨fun i hi => ?_, fun i hi => ?_⟩
  · rw [decodeCombo, getCombo_of_get (index_valid hi) (hcombo _ (index_valid hi))]
    rfl
  · rw [decodeKeyOverride, vialGetKeyOverride,
      getKeyOverride_of_get (index_valid hi) (hoverride _ (index_valid hi))]
    rfl

theorem EntriesAtReset.congr {f : Firmware} {m m' : EepromMem} (h : EntriesAtReset f m)
    (hsame : SameEntries f m m') : EntriesAtReset f m' :=
  ⟨fun i hi => (decodeCombo_congr hsame hi).trans (h.1 i hi),
    fun i hi => (decodeKeyOverride_congr hsame hi).trans (h.2 i hi)⟩

theorem dynamicKeymapReset_atReset : EntriesAtReset f (dynamicKeymapReset f b).eeprom ∧
    SameTables b (dynamicKeymapReset f b) :=
  ⟨entriesReset_atReset f _, rfl, rfl⟩

theorem sameEntries_setValid (valid : Bool) (m : EepromMem) :
    SameEntries f m (viaEepromSetValid f valid m) := by
  intro s hs _
  refine get_of_below hs fun x hx => Mem.writeBlock_of_ge (Nat.le_trans ?_ hx)
  simp only [List.length_cons, List.length_nil, Dims.dynamicKeymapEepromAddr, Dims.viaEepromConfigEnd,
    Dims.viaEepromLayoutOptionsAddr, Firmware.dims]
  omega

theorem eeconfigInitVia_atReset : EntriesAtReset f (eeconfigInitVia f b).eeprom ∧
    SameTables b (eeconfigInitVia f b) := by
  refine ⟨?_, rfl, rfl⟩
  have hkeymap := (dynamicKeymapReset_atReset f { invalidated f b with
    eeprom := viaSetLayoutOptions f.dims f.layoutOptionsDefault (invalidated f b).eeprom }).1
  have hmacros : ∀ m, SameEntries f m (dynamicKeymapMacroReset f.dims m) :=
    fun m s hs hmirrored => get_macroReset hs hmirrored.ne.2.2.2
  exact (hkeymap.congr (hmacros _)).congr (sameEntries_setValid f true _)

theorem mirrors_of_reset {f : Firmware} {b b' : Board} (h : Mirrors f b) (hram : SameTables b b')
    (hreset : EntriesAtReset f b'.eeprom) : Mirrors f b' ↔ EntriesAtReset f b.eeprom := by
  constructor
  · intro h'
    refine ⟨fun i hi => ?_, fun i hi => ?_⟩
    · rw [← h.1 i hi, ← hram.keyCombos, h'.1 i hi]
      exact hreset.1 i hi
    · rw [← h.2 i hi, ← hram.vialKeyOverrides, h'.2 i hi]
      exact hreset.2 i hi
  · intro hbefore
    refine ⟨fun i hi => ?_, fun i hi => ?_⟩
    · rw [hram.keyCombos, h.1 i hi, hbefore.1 i hi, hreset.1 i hi]
    · rw [hram.vialKeyOverrides, h.2 i hi, hbefore.2 i hi, hreset.2 i hi]

end Reset

section Step

variable {f : Firmware} {b b' : Board} {i : HidInput}

theorem sameEntries_of_settingsFrame {m m' : EepromMem} (h : SettingsFrame f.dims m m') :
    SameEntries f m m' :=
  fun _ hs hmirrored => get_of_settingsFrame hs hmirrored.ne.2.2.1 h

theorem Handled.mirrors_step (h : Handled f b i b') (hkeymap : ¬ (i.IsVia .dynamicKeymapReset ∧
    b.vialUnlockInProgress = false)) (heeprom : ¬ i.IsVia .eepromReset) (hb : Mirrors f b) :
    Mirrors f b' := by
  cases h with
  | reply | bootloaderJump _ _ | unlockStart _ | lock _ => exact hb
  | keymapReset hcmd hfree => exact absurd ⟨hcmd, hfree⟩ hkeymap
  | eepromReset hcmd _ => exact absurd hcmd heeprom
  | unlockPoll _ =>
    obtain ⟨_, _, _, _, hpoll⟩ := vialUnlockPoll_frame f b i
    rw [hpoll]
    exact hb.congr ⟨rfl, rfl⟩ .refl
  | setLayoutOptions value _ =>
    exact hb.congr ⟨rfl, rfl⟩ fun s hs _ => get_setLayoutOptions hs value
  | setKeycode _ _ =>
    have hset := sameEntries_set (f := f) (m := b.eeprom) (t := .key (i.data 1) (i.data 2) (i.data 3))
      (fun h => h.ne.1 rfl) (beWord (i.data 4) (i.data 5))
    exact hb.congr ⟨rfl, rfl⟩ hset
  | macroSetBuffer _ _ =>
    exact hb.congr ⟨rfl, rfl⟩ fun s hs hmirrored => get_macroSetBuffer hs hmirrored.ne.2.2.2 _ _ _ _
  | macroReset _ =>
    exact hb.congr ⟨rfl, rfl⟩ fun s hs hmirrored => get_macroReset hs hmirrored.ne.2.2.2
  | setBuffer _ =>
    exact hb.congr ⟨rfl, rfl⟩ fun s hs hmirrored => setBuffer_other hs hmirrored.ne.1
  | setEncoder _ =>
    have hset := sameEntries_set (f := f) (m := b.eeprom)
      (t := .encoder (i.data 2) (i.data 3) (i.data 4 ≠ 0)) (fun h => h.ne.2.1 rfl)
      (b.vialKeycodeFirewall (beWord (i.data 5) (i.data 6)))
    exact hb.congr ⟨rfl, rfl⟩ hset
  | settingsSet qsid maxsz _ =>
    exact hb.congr ⟨rfl, rfl⟩ (sameEntries_of_settingsFrame (qmkSettingsSet_frame _ _ _ _ _ _ _))
  | settingsReset _ =>
    exact hb.congr ⟨rfl, rfl⟩ (sameEntries_of_settingsFrame (qmkSettingsReset_frame _ _ _))
  | tapDanceSet entry _ =>
    have hset := sameEntries_set (f := f) (m := b.eeprom) (t := .tapDance (i.data 3))
      (by rintro (h | h) <;> cases h) (b.firewallTapDance entry)
    exact hb.congr ⟨rfl, rfl⟩ hset
  | comboSet entry _ =>
    -- the combos are loaded again, and the key overrides are other slots
    refine ⟨fun k hk => reloadCombo_mirrors f _ hk, fun k hk => ?_⟩
    refine (hb.2 k hk).trans ?_
    have hv : Slot.Valid f.geometry (.keyOverride k.toUInt8) := index_valid hk
    have hother : Slot.get f.geometry ((dynamicKeymapSetCombo f.dims b.eeprom (i.data 3)
        (b.firewallCombo entry)).2) (.keyOverride k.toUInt8) =
        Slot.get f.geometry b.eeprom (.keyOverride k.toUInt8) :=
      Slot.get_set_of_ne (t := .combo (i.data 3)) hv Slot.noConfusion _ _
    rw [Slot.get_eq (s := .keyOverride k.toUInt8) hv b.eeprom] at hother
    simp only [decodeKeyOverride, vialGetKeyOverride, getKeyOverride_of_get hv hother,
      getKeyOverride_of_get hv (Slot.get_eq (s := .keyOverride k.toUInt8) hv b.eeprom), reloadCombo]
  | keyOverrideSet entry _ =>
    refine ⟨fun k hk => ?_, fun k hk => reloadKeyOverride_mirrors f _ hk⟩
    refine (hb.1 k hk).trans ?_
    have hv : Slot.Valid f.geometry (.combo k.toUInt8) := index_valid hk
    have hother : Slot.get f.geometry ((dynamicKeymapSetKeyOverride f.dims b.eeprom (i.data 3)
        (b.firewallKeyOverride entry)).2) (.combo k.toUInt8) =
        Slot.get f.geometry b.eeprom (.combo k.toUInt8) :=
      Slot.get_set_of_ne (t := .keyOverride (i.data 3)) hv Slot.noConfusion _ _
    rw [Slot.get_eq (s := .combo k.toUInt8) hv b.eeprom] at hother
    simp only [decodeCombo, getCombo_of_get hv hother,
      getCombo_of_get hv (Slot.get_eq (s := .combo k.toUInt8) hv b.eeprom), reloadKeyOverride]

theorem rawHidReceive_mirrors (h : ¬ Resets f b i) (hb : Mirrors f b) :
    Mirrors f (rawHidReceive f b i).1 := by
  by_cases hcmd : i.IsVia .eepromReset
  · have hsame : (rawHidReceive f b i).1 = b := by
      have hbyte : ViaCmd.ofByte (i.data 0) = some .eepromReset := hcmd
      rw [rawHidReceive]
      split
      · rfl
      · rename_i hserved
        have hfree : b.vialUnlockInProgress = false := by
          by_contra hbusy
          exact hserved ⟨by simpa using hbusy, by simp [allowedInProgress, hbyte]⟩
        rw [rawHidSwitch, hbyte]
        dsimp only
        rw [if_neg fun hallow => h ⟨hfree, .inr ⟨hcmd, hallow⟩⟩]
    rw [hsame]
    exact hb
  · exact (rawHidReceive_handled f b i).mirrors_step (fun hk => h ⟨hk.2, .inl hk.1⟩) hcmd hb

theorem rawHidReceive_reset (h : Resets f b i) :
    EntriesAtReset f (rawHidReceive f b i).1.eeprom ∧ SameTables b (rawHidReceive f b i).1 := by
  obtain ⟨hfree, hcmd⟩ := h
  have hserved : ¬ (b.vialUnlockInProgress = true ∧ allowedInProgress i.data = false) := by
    simp [hfree]
  rw [rawHidReceive, if_neg hserved, rawHidSwitch]
  rcases hcmd with hcmd | ⟨hcmd, hallow⟩
  · have hbyte : ViaCmd.ofByte (i.data 0) = some .dynamicKeymapReset := hcmd
    rw [hbyte]
    exact dynamicKeymapReset_atReset f b
  · have hbyte : ViaCmd.ofByte (i.data 0) = some .eepromReset := hcmd
    rw [hbyte]
    dsimp only
    rw [if_pos hallow]
    obtain ⟨hreset, hram⟩ := eeconfigInitVia_atReset f
      { b with eeprom := viaEepromSetValid f false b.eeprom }
    exact ⟨hreset, hram.keyCombos, hram.vialKeyOverrides⟩

theorem mirrors_receive (hb : Mirrors f b) :
    Mirrors f (rawHidReceive f b i).1 ↔ (Resets f b i → EntriesAtReset f b.eeprom) := by
  by_cases h : Resets f b i
  · obtain ⟨hreset, hram⟩ := rawHidReceive_reset h
    rw [mirrors_of_reset hb hram hreset]
    exact ⟨fun hentries _ => hentries, fun hentries => hentries h⟩
  · exact ⟨fun _ hr => absurd hr h, fun _ => rawHidReceive_mirrors h hb⟩

end Step

section PowerUp

variable (f : Firmware) (e : EeconfigBuild)

theorem sameEntries_initKb (m : EepromMem) : SameEntries f m (eeconfigInitKb f m) := by
  intro s hs _
  refine get_of_below hs fun x hx => ?_
  have hx : 36 ≤ x := by
    refine Nat.le_trans ?_ hx
    simp only [Dims.dynamicKeymapEepromAddr, Dims.viaEepromConfigEnd, Dims.viaEepromLayoutOptionsAddr,
      Dims.viaEepromMagicAddr, Dims.eeconfigSize, eeconfigBaseSize]
    omega
  have hword : ∀ (m : EepromMem) (a : Nat), a ≤ 32 → m.writeBlock a [0, 0, 0, 0] x = m x :=
    fun m a ha => Mem.writeBlock_of_ge (by simp only [List.length_cons, List.length_nil]; omega)
  unfold eeconfigInitKb
  split
  · rw [hword _ 19 (by decide)]
    split
    · exact hword _ 15 (by decide)
    · rfl
  · split
    · exact hword _ 15 (by decide)
    · rfl

theorem eeconfigInitQuantum_atReset (b : Board) :
    EntriesAtReset f (eeconfigInitQuantum f e b).eeprom ∧ SameTables b (eeconfigInitQuantum f e b) := by
  have hvia : ∀ m, EntriesAtReset f (eeconfigInitKb f (eeconfigInitVia f { b with eeprom := m }).eeprom) ∧
      SameTables b (eeconfigInitVia f { b with eeprom := m }) := by
    intro m
    obtain ⟨hreset, hram⟩ := eeconfigInitVia_atReset f { b with eeprom := m }
    exact ⟨hreset.congr (sameEntries_initKb f _), hram.keyCombos, hram.vialKeyOverrides⟩
  simp only [eeconfigInitQuantum]
  exact ⟨(hvia _).1, (hvia _).2.keyCombos, (hvia _).2.vialKeyOverrides⟩

theorem keyboardInit_cases (b : Board) :
    SameTables b (keyboardInit f e b) ∧
      (if eeconfigIsEnabled f b.eeprom then (keyboardInit f e b).eeprom = b.eeprom
      else EntriesAtReset f (keyboardInit f e b).eeprom) := by
  have hquantum : ∀ b, EntriesAtReset f b.eeprom →
      EntriesAtReset f (quantumInit f e b).eeprom ∧ SameTables b (quantumInit f e b) := by
    intro b hb
    unfold quantumInit
    dsimp only
    split
    · exact ⟨hb, rfl, rfl⟩
    · obtain ⟨hreset, hram⟩ := eeconfigInitQuantum_atReset f e b
      exact ⟨hreset, hram.keyCombos, hram.vialKeyOverrides⟩
  unfold keyboardInit viaInit
  by_cases hvalid : viaEepromIsValid f b.eeprom = true
  · rw [if_pos hvalid]
    unfold quantumInit
    dsimp only
    split
    · exact ⟨⟨rfl, rfl⟩, rfl⟩
    · obtain ⟨hreset, hram⟩ := eeconfigInitQuantum_atReset f e b
      exact ⟨⟨hram.keyCombos, hram.vialKeyOverrides⟩, hreset⟩
  · have hoff : ¬ eeconfigIsEnabled f b.eeprom = true := by
      simp only [eeconfigIsEnabled, decide_eq_true_eq]
      exact fun h => hvalid h.2
    rw [if_neg hvalid, if_neg hoff]
    obtain ⟨hreset, hram⟩ := eeconfigInitVia_atReset f b
    obtain ⟨hreset', hram'⟩ := hquantum _ hreset
    exact ⟨⟨hram'.keyCombos.trans hram.keyCombos, hram'.vialKeyOverrides.trans hram.vialKeyOverrides⟩,
      hreset'⟩

/-- At power-up: in step exactly if the EEPROM is enabled, or its entries are at reset already. -/
theorem mirrors_powerUp (m : EepromMem) :
    Mirrors f (powerUp f e m) ↔ (eeconfigIsEnabled f m = true ∨ EntriesAtReset f m) := by
  have hsetup : Mirrors f (keyboardSetup f { Board.blank with eeprom := m }) := by
    have hinit := vialInit_mirrors f { Board.blank with eeprom := m }
    exact ⟨hinit.1, hinit.2⟩
  obtain ⟨hram, heeprom⟩ := keyboardInit_cases f e (keyboardSetup f { Board.blank with eeprom := m })
  have hm : (keyboardSetup f { Board.blank with eeprom := m }).eeprom = m := rfl
  rw [hm] at heeprom
  unfold powerUp
  by_cases hon : eeconfigIsEnabled f m = true
  · rw [if_pos hon] at heeprom
    refine ⟨fun _ => .inl hon, fun _ => hsetup.congr hram ?_⟩
    rw [heeprom, hm]
    exact .refl
  · rw [if_neg hon] at heeprom
    rw [mirrors_of_reset hsetup hram heeprom, hm]
    exact ⟨.inr, fun h => h.resolve_left hon⟩

end PowerUp

/-- **Mirrors.** Over power-up and every run of messages: the tables are in step with the EEPROM in
every state if and only if the EEPROM was enabled at power-up and each reset that was served found the
entries at reset, or the entries were so from the start. -/
theorem mirrors_run (f : Firmware) (e : EeconfigBuild) (m : EepromMem) (is : List HidInput) :
    (∀ pre, pre <+: is → Mirrors f (run f (powerUp f e m) pre)) ↔
      (eeconfigIsEnabled f m = true ∨ EntriesAtReset f m) ∧
      ∀ pre i, pre ++ [i] <+: is → Resets f (run f (powerUp f e m) pre) i →
        EntriesAtReset f (run f (powerUp f e m) pre).eeprom := by
  constructor
  · intro h
    refine ⟨(mirrors_powerUp f e m).mp (h [] List.nil_prefix), fun pre i hpre => ?_⟩
    have hstep := h (pre ++ [i]) hpre
    rw [run_append_singleton] at hstep
    exact (mirrors_receive (h pre ((List.prefix_append pre [i]).trans hpre))).mp hstep
  · rintro ⟨hpower, hresets⟩ pre hpre
    induction pre using List.reverseRecOn with
    | nil => exact (mirrors_powerUp f e m).mpr hpower
    | append_singleton pre i ih =>
      rw [run_append_singleton]
      have hbefore := ih ((List.prefix_append pre [i]).trans hpre)
      exact (mirrors_receive hbefore).mpr (hresets pre i hpre)

def EeconfigBuild.plain : EeconfigBuild where
  eepromDriverFormat m := m
  defaultLayer := 1
  kbDataVersion := 0
  userDataVersion := 0

/-- First power-up over an erased EEPROM: the combo table is loaded from the bytes 0xFF that the reset
then replaces. -/
theorem erased_mirrors_differ : ¬ Mirrors .onePad (powerUp .onePad .plain fun _ => 0xFF) := by
  rw [mirrors_powerUp]
  rintro (h | h)
  · exact absurd h (by decide)
  · exact absurd (h.1 0 (by decide)) (by decide)

end Hid
end VialQmk
