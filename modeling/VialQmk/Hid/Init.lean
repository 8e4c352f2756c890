import VialQmk.Lib.Writes
import VialQmk.Eeprom.Slots
import VialQmk.Hid.Via

/-!
# Hid.Init

What happens between power-up and the first message: `keyboard_setup` with `vial_init`, then
`keyboard_init` with `via_init` and `quantum_init`; `bootmagic` finds no key held. The EEPROM reset of
`eeconfig_init_via` is given byte by byte as well, in the order of its writes.

* `applyWrites_initVia`: the writes make up `eeconfigInitVia`.
* `resetWrites_off_magic`: between the two updates of the magic number none of them touches it.
-/

namespace VialQmk
namespace Hid

open Lib Eeprom

def viaEepromIsValid (f : Firmware) (m : EepromMem) : Bool :=
  m f.dims.viaEepromMagicAddr = f.buildId.toUInt8 ∧
    m (f.dims.viaEepromMagicAddr + 1) = (f.buildId >>> 8).toUInt8 ∧
    m (f.dims.viaEepromMagicAddr + 2) = (f.buildId >>> 16).toUInt8

/-- `via_init`; `via_init_kb` and `via_set_layout_options_kb` are the weak, empty ones. -/
def viaInit (f : Firmware) (b : Board) : Board :=
  if viaEepromIsValid f b.eeprom then b else eeconfigInitVia f b

def vialInit (f : Firmware) (b : Board) : Board := reloadKeyOverride f (reloadCombo f b)

/-- What the build adds: `eeprom_driver_format(false)`, the identity without an `EEPROM_DRIVER`, the
stored default layer and the versions of the two data blocks. -/
structure EeconfigBuild where
  eepromDriverFormat : EepromMem → EepromMem
  defaultLayer : UInt8
  kbDataVersion : UInt32
  userDataVersion : UInt32

section PowerUp

variable (f : Firmware) (e : EeconfigBuild)

/-- The signature at `EECONFIG_MAGIC` is `EECONFIG_MAGIC_NUMBER`. -/
def eeconfigIsEnabled (m : EepromMem) : Bool :=
  beWord (m 1) (m 0) = 0xFEE5 ∧ viaEepromIsValid f m = true

/-- The fields of `eeprom_core_t` as `eeconfig_init_quantum` sets them, by offset. -/
def eeconfigCore : List (Nat × List UInt8) :=
  [(0, [0xE5, 0xFE]), (2, [0]), (3, [e.defaultLayer]), (4, [0x00, 0x14]), (6, [0]), (7, [0]),
    (8, [0, 0, 0, 0]), (35, [0]), (12, [0]), (13, [0]), (23, List.replicate 8 0), (31, [0, 0, 0, 0])]

/-- A data block of the keyboard or the user: its version and zeros, if it has a size. -/
def eeconfigInitDatablock (versionAddr : Nat) (version : UInt32) (addr size : Nat) (m : EepromMem) :
    EepromMem :=
  if size > 0 then (m.writeBlock versionAddr (le32 version)).writeBlock addr (List.replicate size 0)
  else m

/-- `eeconfig_init_kb` and `eeconfig_init_user`: the two words of boards without data blocks. -/
def eeconfigInitKb (m : EepromMem) : EepromMem :=
  let m := if f.dims.kbDataSize = 0 then m.writeBlock 15 [0, 0, 0, 0] else m
  if f.dims.userDataSize = 0 then m.writeBlock 19 [0, 0, 0, 0] else m

def eeconfigInitQuantum (b : Board) : Board :=
  let m := e.eepromDriverFormat b.eeprom
  let m := (eeconfigCore e).foldl (fun m field => m.writeBlock field.1 field.2) m
  let m := eeconfigInitDatablock 15 e.kbDataVersion eeconfigBaseSize f.dims.kbDataSize m
  let m := eeconfigInitDatablock 19 e.userDataVersion (eeconfigBaseSize + f.dims.kbDataSize)
    f.dims.userDataSize m
  let b := eeconfigInitVia f { b with eeprom := viaEepromSetValid f false m }
  { b with eeprom := eeconfigInitKb f b.eeprom }

def quantumInit (b : Board) : Board :=
  let b := if eeconfigIsEnabled f b.eeprom then b else eeconfigInitQuantum f e b
  { b with keymapConfig := beWord (b.eeprom 5) (b.eeprom 4) }

def keyboardSetup (b : Board) : Board :=
  let b := vialInit f b
  { b with toSettingsState := qmkSettingsInit f.dims b.toSettingsState }

def keyboardInit (b : Board) : Board := quantumInit f e (viaInit f b)

def powerUp (m : EepromMem) : Board := keyboardInit f e (keyboardSetup f { Board.blank with eeprom := m })

end PowerUp

section Writes

variable (f : Firmware)

def setValidWrites (valid : Bool) : List (Nat × UInt8) :=
  let magic (shift : UInt32) : UInt8 := if valid then (f.buildId >>> shift).toUInt8 else 0xFF
  blockWrites f.dims.viaEepromMagicAddr [magic 0, magic 8, magic 16]

def layoutOptionsWrites (base : Nat) : Nat → UInt32 → List (Nat × UInt8)
  | 0, _ => []
  | n + 1, value => (base + n, value.toUInt8) :: layoutOptionsWrites base n (value >>> 8)

def setKeycodeWrites (layer row column : UInt8) (keycode : UInt16) : List (Nat × UInt8) :=
  if KeyInRange f.dims layer row column then
    blockWrites (dynamicKeymapKeyToEepromAddress f.dims layer row column)
      [hiByte keycode, loByte keycode]
  else []

def setEncoderWrites (layer encoderId : UInt8) (clockwise : Bool) (keycode : UInt16) :
    List (Nat × UInt8) :=
  if EncoderInRange f.dims layer encoderId then
    blockWrites (dynamicKeymapEncoderToEepromAddress f.dims layer encoderId +
      (if clockwise then 0 else 2)) [hiByte keycode, loByte keycode]
  else []

def setEntryWrites {α : Type} (c : Codec UInt8 α) (base entries : Nat) (index : UInt8) (entry : α) :
    List (Nat × UInt8) :=
  if index.toNat ≥ entries then [] else blockWrites (base + index.toNat * c.size) (c.enc entry)

def keymapResetLayerWrites (layer : Nat) : List (Nat × UInt8) :=
  (List.range f.dims.matrixRows).flatMap (fun row => (List.range f.dims.matrixCols).flatMap fun column =>
    setKeycodeWrites f layer.toUInt8 row.toUInt8 column.toUInt8
      (f.keycodeAtKeymapLocationRaw layer.toUInt8 row.toUInt8 column.toUInt8)) ++
  (List.range f.dims.numEncoders).flatMap fun encoder =>
    setEncoderWrites f layer.toUInt8 encoder.toUInt8 true
      (f.keycodeAtEncodermapLocationRaw layer.toUInt8 encoder.toUInt8 true) ++
    setEncoderWrites f layer.toUInt8 encoder.toUInt8 false
      (f.keycodeAtEncodermapLocationRaw layer.toUInt8 encoder.toUInt8 false)

/-- The first `n` rounds of `eeprom_settings_save`, which skips the bytes that are there already. -/
def settingsSaveWrites (s : SettingsState) : Nat → List (Nat × UInt8)
  | 0 => []
  | n + 1 =>
    let m := eepromSettingsSaveN f.dims s n
    settingsSaveWrites s n ++
      if dynamicKeymapGetQmkSettings f.dims m n.toUInt16 ≠ s.qs n ∧
          ¬ n.toUInt16.toNat ≥ vialQmkSettingsSize then
        [(f.dims.vialQmkSettingsEepromAddr + n.toUInt16.toNat, s.qs n)]
      else []

def settingsResetWrites (s : SettingsState) : List (Nat × UInt8) :=
  settingsSaveWrites f { s with qs := qsDefaults f.settings s.qs } vialQmkSettingsSize ++
    blockWrites eeconfigKeymap [loByte 0x0400, hiByte 0x0400]

def entriesResetWrites : List (Nat × UInt8) :=
  let td : VialTapDanceEntry := ⟨0, 0, 0, 0, f.settings.tappingTerm⟩
  let ko : VialKeyOverrideEntry := ⟨0, 0, 0xFFFF, 0, 0, 0, 0x07⟩
  (List.range f.dims.tapDanceEntries).flatMap (fun k =>
    setEntryWrites VialTapDanceEntry.codec f.dims.vialTapDanceEepromAddr f.dims.tapDanceEntries
      k.toUInt8 td) ++
  ((List.range f.dims.comboEntries).flatMap (fun k =>
    setEntryWrites VialComboEntry.codec f.dims.vialComboEepromAddr f.dims.comboEntries k.toUInt8
      ⟨.replicate 4 0, 0⟩) ++
  (List.range f.dims.keyOverrideEntries).flatMap fun k =>
    setEntryWrites VialKeyOverrideEntry.codec f.dims.vialKeyOverrideEepromAddr
      f.dims.keyOverrideEntries k.toUInt8 ko)

def dynamicKeymapResetWrites (b : Board) : List (Nat × UInt8) :=
  let m := forN f.dims.layerCount (keymapResetLayer f) b.eeprom
  (List.range f.dims.layerCount).flatMap (keymapResetLayerWrites f) ++
    (settingsResetWrites f { b.toSettingsState with eeprom := m } ++ entriesResetWrites f)

def macroResetWrites : List (Nat × UInt8) :=
  (List.range f.dims.dynamicKeymapMacroEepromSize).map fun k =>
    (f.dims.dynamicKeymapMacroEepromAddr + k, 0)

/-- The reset proper: layout options, keymap, encoders, settings, entries and macros. -/
def resetWrites (b : Board) : List (Nat × UInt8) :=
  let m := viaSetLayoutOptions f.dims f.layoutOptionsDefault b.eeprom
  layoutOptionsWrites f.dims.viaEepromLayoutOptionsAddr f.dims.layoutOptionsSize f.layoutOptionsDefault ++
    (dynamicKeymapResetWrites f { b with eeprom := m } ++ macroResetWrites f)

def invalidated (b : Board) : Board := { b with eeprom := viaEepromSetValid f false b.eeprom }

def eeconfigInitViaWrites (b : Board) : List (Nat × UInt8) :=
  setValidWrites f false ++ (resetWrites f (invalidated f b) ++ setValidWrites f true)

def viaInitWrites (b : Board) : List (Nat × UInt8) :=
  if viaEepromIsValid f b.eeprom then [] else eeconfigInitViaWrites f b

end Writes

section Apply

variable (f : Firmware) (m : EepromMem)

theorem applyWrites_setValid (valid : Bool) :
    applyWrites m (setValidWrites f valid) = viaEepromSetValid f valid m := by
  rw [setValidWrites, applyWrites_blockWrites]
  rfl

theorem applyWrites_layoutOptions (base n : Nat) (value : UInt32) :
    applyWrites m (layoutOptionsWrites base n value) = layoutOptionsLoop base n value m := by
  induction n generalizing value m with
  | zero => rfl
  | succ n ih => exact ih _ _

theorem applyWrites_setKeycode (layer row column : UInt8) (keycode : UInt16) :
    applyWrites m (setKeycodeWrites f layer row column keycode) =
      dynamicKeymapSetKeycode f.dims m layer row column keycode := by
  unfold setKeycodeWrites dynamicKeymapSetKeycode
  split <;> rfl

theorem applyWrites_setEncoder (layer encoderId : UInt8) (clockwise : Bool) (keycode : UInt16) :
    applyWrites m (setEncoderWrites f layer encoderId clockwise keycode) =
      dynamicKeymapSetEncoder f.dims m layer encoderId clockwise keycode := by
  unfold setEncoderWrites dynamicKeymapSetEncoder
  split <;> rfl

theorem applyWrites_setEntry {α : Type} (c : Codec UInt8 α) (base entries : Nat) (index : UInt8)
    (entry : α) :
    applyWrites m (setEntryWrites c base entries index entry) = (setEntry c base entries m index entry).2 := by
  unfold setEntryWrites setEntry
  split
  · rfl
  · exact applyWrites_blockWrites _ _ _

theorem applyWrites_keymapResetLayer (layer : Nat) :
    applyWrites m (keymapResetLayerWrites f layer) = keymapResetLayer f layer m := by
  simp only [keymapResetLayerWrites, keymapResetLayer, forN, applyWrites_append, applyWrites_flatMap,
    applyWrites_setKeycode, applyWrites_setEncoder]

theorem applyWrites_settingsSave (s : SettingsState) (n : Nat) :
    applyWrites s.eeprom (settingsSaveWrites f s n) = eepromSettingsSaveN f.dims s n := by
  induction n with
  | zero =>
    simp only [eepromSettingsSaveN]
    rfl
  | succ n ih =>
    simp only [settingsSaveWrites, eepromSettingsSaveN, dynamicKeymapSetQmkSettings]
    rw [applyWrites_append, ih]
    split
    · rename_i h
      rw [if_pos h.1, if_neg h.2]
      rfl
    · rename_i h
      split
      · rename_i hne
        rw [if_pos (by_contra fun hlt => h ⟨hne, hlt⟩)]
        rfl
      · rfl

theorem applyWrites_settingsReset (s : SettingsState) :
    applyWrites s.eeprom (settingsResetWrites f s) = (qmkSettingsReset f.dims f.settings s).eeprom := by
  have hsave := applyWrites_settingsSave f { s with qs := qsDefaults f.settings s.qs } vialQmkSettingsSize
  rw [settingsResetWrites, applyWrites_append]
  refine (applyWrites_blockWrites _ _ _).trans ?_
  exact congrArg (fun m : EepromMem => m.writeBlock eeconfigKeymap [loByte 0x0400, hiByte 0x0400]) hsave

theorem applyWrites_entriesReset : applyWrites m (entriesResetWrites f) = entriesReset f m := by
  have hzeros : Vector.replicate 4 (0 : UInt16) = #v[0, 0, 0, 0] := rfl
  simp only [entriesResetWrites, entriesReset, forN, applyWrites_append, applyWrites_flatMap,
    applyWrites_setEntry, dynamicKeymapSetTapDance, dynamicKeymapSetCombo, dynamicKeymapSetKeyOverride,
    hzeros]

theorem applyWrites_dynamicKeymapReset (b : Board) :
    applyWrites b.eeprom (dynamicKeymapResetWrites f b) = (dynamicKeymapReset f b).eeprom := by
  have hkeymap : ∀ m : EepromMem, applyWrites m ((List.range f.dims.layerCount).flatMap
      (keymapResetLayerWrites f)) = forN f.dims.layerCount (keymapResetLayer f) m := by
    intro m
    simp only [applyWrites_flatMap, applyWrites_keymapResetLayer, forN]
  have hsettings := applyWrites_settingsReset f
    { b.toSettingsState with eeprom := forN f.dims.layerCount (keymapResetLayer f) b.eeprom }
  simp only [dynamicKeymapResetWrites, dynamicKeymapReset]
  rw [applyWrites_append, applyWrites_append, hkeymap, hsettings, applyWrites_entriesReset]

theorem applyWrites_macroReset :
    applyWrites m (macroResetWrites f) = dynamicKeymapMacroReset f.dims m := by
  rw [macroResetWrites, dynamicKeymapMacroReset]
  generalize f.dims.dynamicKeymapMacroEepromSize = n
  induction n with
  | zero => rfl
  | succ n ih =>
    rw [List.range_succ, List.map_append, applyWrites_append, ih]
    rfl

theorem applyWrites_initVia (b : Board) :
    applyWrites b.eeprom (eeconfigInitViaWrites f b) = (eeconfigInitVia f b).eeprom := by
  have hreset : ∀ b : Board, applyWrites b.eeprom (resetWrites f b) =
      dynamicKeymapMacroReset f.dims (dynamicKeymapReset f { b with
        eeprom := viaSetLayoutOptions f.dims f.layoutOptionsDefault b.eeprom }).eeprom := by
    intro b
    have hkeymap := applyWrites_dynamicKeymapReset f { b with
      eeprom := viaSetLayoutOptions f.dims f.layoutOptionsDefault b.eeprom }
    rw [resetWrites, applyWrites_append, applyWrites_layoutOptions, applyWrites_append]
    refine (applyWrites_macroReset f _).trans ?_
    exact congrArg _ hkeymap
  rw [eeconfigInitViaWrites, applyWrites_append, applyWrites_setValid, applyWrites_append]
  refine (applyWrites_setValid f _ true).trans ?_
  exact congrArg _ (hreset (invalidated f b))

end Apply

section Off

variable (f : Firmware)

/-- The write goes past the magic number, or in front of it. -/
def OffMagic (w : Nat × UInt8) : Prop :=
  w.1 < f.dims.viaEepromMagicAddr ∨ f.dims.viaEepromLayoutOptionsAddr ≤ w.1

theorem offMagic_of_keymap {w : Nat × UInt8} (h : f.dims.dynamicKeymapEepromAddr ≤ w.1) : OffMagic f w := by
  refine .inr (Nat.le_trans ?_ h)
  simp only [Dims.dynamicKeymapEepromAddr, Dims.viaEepromConfigEnd]
  omega

theorem blockWrites_off {t : Table} {a : Nat} {bytes : List UInt8} (h : (f.dims.region t).base ≤ a) :
    ∀ w ∈ blockWrites a bytes, OffMagic f w := by
  intro w hw
  have hkey := keymap_le_base f.dims t
  have hmem := mem_blockWrites bytes hw
  exact offMagic_of_keymap f (by omega)

theorem layoutOptionsWrites_off (n : Nat) (value : UInt32) :
    ∀ w ∈ layoutOptionsWrites f.dims.viaEepromLayoutOptionsAddr n value, OffMagic f w := by
  induction n generalizing value with
  | zero => exact List.forall_mem_nil _
  | succ n ih => exact List.forall_mem_cons.mpr ⟨.inr (Nat.le_add_right _ _), ih _⟩

theorem setKeycodeWrites_off (layer row column : UInt8) (keycode : UInt16) :
    ∀ w ∈ setKeycodeWrites f layer row column keycode, OffMagic f w := by
  unfold setKeycodeWrites
  split
  · refine blockWrites_off (t := .key) f ?_
    simp only [Dims.region, dynamicKeymapKeyToEepromAddress]
    omega
  · exact List.forall_mem_nil _

theorem setEncoderWrites_off (layer encoderId : UInt8) (clockwise : Bool) (keycode : UInt16) :
    ∀ w ∈ setEncoderWrites f layer encoderId clockwise keycode, OffMagic f w := by
  unfold setEncoderWrites
  split
  · refine blockWrites_off (t := .encoder) f ?_
    simp only [Dims.region, dynamicKeymapEncoderToEepromAddress]
    omega
  · exact List.forall_mem_nil _

theorem setEntryWrites_off {α : Type} (t : Table) (c : Codec UInt8 α) (entries : Nat) (index : UInt8)
    (entry : α) :
    ∀ w ∈ setEntryWrites c (f.dims.region t).base entries index entry, OffMagic f w := by
  unfold setEntryWrites
  split
  · exact List.forall_mem_nil _
  · exact blockWrites_off (t := t) f (Nat.le_add_right _ _)

theorem settingsSaveWrites_off (s : SettingsState) (n : Nat) :
    ∀ w ∈ settingsSaveWrites f s n, OffMagic f w := by
  induction n with
  | zero => exact List.forall_mem_nil _
  | succ n ih =>
    rw [settingsSaveWrites, List.forall_mem_append]
    refine ⟨ih, ?_⟩
    split
    · have hkey := keymap_le_base f.dims .setting
      refine List.forall_mem_singleton.mpr (offMagic_of_keymap f ?_)
      exact Nat.le_trans hkey (Nat.le_add_right _ _)
    · exact List.forall_mem_nil _

theorem eeconfigKeymap_off : ∀ w ∈ blockWrites eeconfigKeymap [loByte 0x0400, hiByte 0x0400],
    OffMagic f w := by
  intro w hw
  have hmem := mem_blockWrites _ hw
  refine .inl ?_
  simp only [List.length_cons, List.length_nil, eeconfigKeymap] at hmem
  simp only [Dims.viaEepromMagicAddr, Dims.eeconfigSize, eeconfigBaseSize]
  omega

theorem forall_mem_range_flatMap {P : Nat × UInt8 → Prop} {n : Nat} {round : Nat → List (Nat × UInt8)}
    (h : ∀ k, ∀ w ∈ round k, P w) : ∀ w ∈ (List.range n).flatMap round, P w := by
  intro w hw
  obtain ⟨k, -, hk⟩ := List.mem_flatMap.mp hw
  exact h k w hk

theorem resetWrites_off_magic (b : Board) : ∀ w ∈ resetWrites f b, OffMagic f w := by
  simp only [resetWrites, dynamicKeymapResetWrites, settingsResetWrites, entriesResetWrites,
    macroResetWrites, List.forall_mem_append]
  refine ⟨layoutOptionsWrites_off f _ _, ⟨?_, ⟨settingsSaveWrites_off f _ _, eeconfigKeymap_off f⟩, ?_⟩, ?_⟩
  · refine forall_mem_range_flatMap fun layer => ?_
    simp only [keymapResetLayerWrites, List.forall_mem_append]
    refine ⟨?_, ?_⟩
    · exact forall_mem_range_flatMap fun row => forall_mem_range_flatMap fun column =>
        setKeycodeWrites_off f _ _ _ _
    · refine forall_mem_range_flatMap fun encoder => ?_
      rw [List.forall_mem_append]
      exact ⟨setEncoderWrites_off f _ _ _ _, setEncoderWrites_off f _ _ _ _⟩
  · exact ⟨forall_mem_range_flatMap fun k => setEntryWrites_off f .tapDance _ _ _ _,
      forall_mem_range_flatMap fun k => setEntryWrites_off f .combo _ _ _ _,
      forall_mem_range_flatMap fun k => setEntryWrites_off f .keyOverride _ _ _ _⟩
  · rw [List.forall_mem_map]
    intro k _
    exact offMagic_of_keymap f (Nat.le_trans (keymap_le_base f.dims .macroByte) (Nat.le_add_right _ _))

end Off

/-- The low three bytes of `BUILD_ID`, as the magic number stores them. -/
def buildMagic (f : Firmware) : List UInt8 :=
  [f.buildId.toUInt8, (f.buildId >>> 8).toUInt8, (f.buildId >>> 16).toUInt8]

theorem reset_not_valid (f : Firmware) (b : Board) (hbuild : buildMagic f ≠ [0xFF, 0xFF, 0xFF])
    {ws : List (Nat × UInt8)} (hoff : ∀ w ∈ ws, OffMagic f w) :
    viaEepromIsValid f (applyWrites (viaEepromSetValid f false b.eeprom) ws) = false := by
  have hmagic : ∀ k, k < 3 → applyWrites (viaEepromSetValid f false b.eeprom) ws
      (f.dims.viaEepromMagicAddr + k) = 0xFF := by
    intro k hk
    rw [applyWrites_of_forall_ne]
    · have hcell : b.eeprom.writeBlock f.dims.viaEepromMagicAddr [0xFF, 0xFF, 0xFF]
          (f.dims.viaEepromMagicAddr + k) = ([0xFF, 0xFF, 0xFF] : List UInt8)[k] :=
        Mem.writeBlock_of_mem hk
      refine hcell.trans ?_
      rcases k with _ | _ | _ | k
      · rfl
      · rfl
      · rfl
      · omega
    · intro w hw heq
      have hoff := hoff w hw
      simp only [OffMagic, Dims.viaEepromLayoutOptionsAddr] at hoff
      omega
  rw [Bool.eq_false_iff]
  intro hvalid
  simp only [viaEepromIsValid, decide_eq_true_eq] at hvalid
  obtain ⟨h₀, h₁, h₂⟩ := hvalid
  have e₀ := hmagic 0 (by decide)
  rw [Nat.add_zero] at e₀
  refine hbuild ?_
  rw [buildMagic, ← h₀, ← h₁, ← h₂, e₀, hmagic 1 (by decide), hmagic 2 (by decide)]

/-- **Crash consistency of the first-time initialisation.** The writes make up `via_init`; cut off
after any of them, the magic number is valid only if no byte of the reset proper was written yet, or
all of them were. -/
theorem via_init_crash_consistent (f : Firmware) (b : Board)
    (hbuild : buildMagic f ≠ [0xFF, 0xFF, 0xFF]) :
    applyWrites b.eeprom (viaInitWrites f b) = (viaInit f b).eeprom ∧
    ∀ done, done <+: viaInitWrites f b → viaEepromIsValid f (applyWrites b.eeprom done) = true →
      done <+: setValidWrites f false ∨
      setValidWrites f false ++ resetWrites f (invalidated f b) <+: done := by
  unfold viaInitWrites viaInit
  by_cases hb : viaEepromIsValid f b.eeprom = true
  · rw [if_pos hb, if_pos hb]
    refine ⟨rfl, fun done hdone _ => .inl ?_⟩
    rw [List.prefix_nil.mp hdone]
    exact List.nil_prefix
  · rw [if_neg hb, if_neg hb]
    refine ⟨applyWrites_initVia f b, fun done hdone hvalid => ?_⟩
    rcases prefix_cases hdone with h | ⟨ws, hws, rfl⟩ | h
    · exact .inl h
    · rw [applyWrites_append, applyWrites_setValid,
        reset_not_valid f b hbuild fun w hw => resetWrites_off_magic f _ w (hws.subset hw)] at hvalid
      cases hvalid
    · exact .inr h

theorem via_init_crash_consistent_onePad :
    applyWrites (fun _ => 0xFF) (viaInitWrites .onePad { Board.blank with eeprom := fun _ => 0xFF }) =
      (viaInit .onePad { Board.blank with eeprom := fun _ => 0xFF }).eeprom :=
  (via_init_crash_consistent .onePad { Board.blank with eeprom := fun _ => 0xFF } (by decide)).1

end Hid
end VialQmk
