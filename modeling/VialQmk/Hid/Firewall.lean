import Mathlib.Data.List.Induction
import VialQmk.Hid.Frames

/-!
# Hid.Firewall

The `QK_BOOT` firewall over whole runs: which messages can make a keycode `QK_BOOT` on a locked
board. Every command but `id_dynamic_keymap_set_keycode` enforces it, at any offset and across
packets; that one stores the keycode of the host as it is.
-/

namespace VialQmk
namespace Hid

open Lib Eeprom

section Writers

variable {g : Geometry} {m m' : EepromMem} {s : KeycodeSlot}

theorem read_of_settingsFrame (hv : s.slot.Valid g) (h : SettingsFrame g.toDims m m') :
    s.read g m' = s.read g m :=
  KeycodeSlot.read_congr (get_of_settingsFrame hv s.table_ne.1 h)

theorem read_setLayoutOptions (hv : s.slot.Valid g) (value : UInt32) :
    s.read g (viaSetLayoutOptions g.toDims value m) = s.read g m :=
  KeycodeSlot.read_congr (get_setLayoutOptions hv value)

theorem read_macroReset (hv : s.slot.Valid g) :
    s.read g (dynamicKeymapMacroReset g.toDims m) = s.read g m :=
  KeycodeSlot.read_congr (get_macroReset hv s.table_ne.2)

theorem read_set_ne (hv : s.slot.Valid g) (hs : s.read g m ≠ qkBoot) (t : Slot) (v : t.Value)
    (hpart : ∀ h : t = s.slot, s.part (h ▸ v) ≠ qkBoot) : s.read g (t.set g m v) ≠ qkBoot := by
  rcases KeycodeSlot.read_set hv t v with ⟨h, e⟩ | e
  · rw [e]
    exact hpart h
  · rw [e]
    exact hs

theorem firewall_ne {b : Board} (hb : b.vialUnlocked = false) (keycode : UInt16) :
    b.vialKeycodeFirewall keycode ≠ qkBoot := by
  unfold Board.vialKeycodeFirewall
  split
  · decide
  · rename_i h
    exact fun hk => h ⟨hk, hb⟩

theorem firewallTapDance_ne {b : Board} (hb : b.vialUnlocked = false) (td : VialTapDanceEntry)
    (field : TapDanceField) : field.of (b.firewallTapDance td) ≠ qkBoot := by
  cases field <;> exact firewall_ne hb _

theorem setBuffer_locked_ne (hv : s.slot.Valid g) (hs : s.read g m ≠ qkBoot) (offset size : UInt16)
    (data : Nat) (ram : Ram) :
    s.read g (dynamicKeymapSetBuffer g.toDims false m offset size data ram).1 ≠ qkBoot := by
  cases s with
  | cell layer row column =>
    rcases setBuffer_locked_cell hv m offset size data ram with h | h
    · intro h'
      exact hs (h.symm.trans h')
    · exact h
  | encoder _ _ _ | tapDance _ _ | comboOutput _ | overrideReplacement _ =>
    rw [KeycodeSlot.read_congr (setBuffer_other hv (by simp [KeycodeSlot.slot, Slot.table]))]
    exact hs

end Writers

def IsReset (i : HidInput) : Prop := i.IsVia .dynamicKeymapReset ∨ i.IsVia .eepromReset

/-- The message is a served `id_dynamic_keymap_set_keycode` that puts `QK_BOOT` into a cell of the
keymap. -/
structure PlantsBoot (f : Firmware) (b : Board) (i : HidInput) : Prop where
  cmd : i.IsVia .dynamicKeymapSetKeycode
  free : b.vialUnlockInProgress = false
  inRange : KeyInRange f.dims (i.data 1) (i.data 2) (i.data 3)
  boot : beWord (i.data 4) (i.data 5) = qkBoot

section Step

variable {f : Firmware} {b b' : Board} {i : HidInput} {s : KeycodeSlot}

theorem Handled.boot_planted (h : Handled f b i b') (hb : b.vialUnlocked = false)
    (hreset : ¬ IsReset i) (hs : s.read f.geometry b.eeprom ≠ qkBoot)
    (hs' : s.read f.geometry b'.eeprom = qkBoot) :
    PlantsBoot f b i ∧ s = .cell (i.data 1) (i.data 2) (i.data 3) := by
  have hv : s.slot.Valid f.geometry := KeycodeSlot.valid_of_read hs'
  cases h with
  | reply | bootloaderJump _ _ | unlockStart _ | lock _ => exact absurd hs' hs
  | keymapReset hcmd _ => exact absurd (.inl hcmd) hreset
  | eepromReset hcmd _ => exact absurd (.inr hcmd) hreset
  | macroSetBuffer hunlocked _ =>
    rw [hb] at hunlocked
    cases hunlocked
  | setLayoutOptions value _ => exact absurd ((read_setLayoutOptions hv value).symm.trans hs') hs
  | macroReset _ => exact absurd ((read_macroReset hv).symm.trans hs') hs
  | settingsSet qsid maxsz _ =>
    exact absurd ((read_of_settingsFrame hv (qmkSettingsSet_frame _ _ _ _ _ _ _)).symm.trans hs') hs
  | settingsReset _ =>
    exact absurd ((read_of_settingsFrame hv (qmkSettingsReset_frame _ _ _)).symm.trans hs') hs
  | unlockPoll _ =>
    obtain ⟨_, _, _, _, hpoll⟩ := vialUnlockPoll_frame f b i
    rw [hpoll] at hs'
    exact absurd hs' hs
  | setBuffer _ =>
    simp only [hb] at hs'
    exact absurd hs' (setBuffer_locked_ne hv hs _ _ _ _)
  | setEncoder _ =>
    refine absurd hs' (read_set_ne hv hs (.encoder (i.data 2) (i.data 3) (i.data 4 ≠ 0)) _ ?_)
    intro h
    cases s with
    | encoder _ _ _ => cases h; exact firewall_ne hb _
    | cell _ _ _ | tapDance _ _ | comboOutput _ | overrideReplacement _ => cases h
  | tapDanceSet entry _ =>
    refine absurd hs' (read_set_ne hv hs (.tapDance (i.data 3)) _ ?_)
    intro h
    cases s with
    | tapDance _ field => cases h; exact firewallTapDance_ne hb _ field
    | cell _ _ _ | encoder _ _ _ | comboOutput _ | overrideReplacement _ => cases h
  | comboSet entry _ =>
    refine absurd hs' (read_set_ne hv hs (.combo (i.data 3)) _ ?_)
    intro h
    cases s with
    | comboOutput _ => cases h; exact firewall_ne hb _
    | cell _ _ _ | encoder _ _ _ | tapDance _ _ | overrideReplacement _ => cases h
  | keyOverrideSet entry _ =>
    refine absurd hs' (read_set_ne hv hs (.keyOverride (i.data 3)) _ ?_)
    intro h
    cases s with
    | overrideReplacement _ => cases h; exact firewall_ne hb _
    | cell _ _ _ | encoder _ _ _ | tapDance _ _ | comboOutput _ => cases h
  | setKeycode hcmd hfree =>
    rcases KeycodeSlot.read_set hv (.key (i.data 1) (i.data 2) (i.data 3))
      (beWord (i.data 4) (i.data 5)) with ⟨h, e⟩ | e
    · cases s with
      | cell layer row column =>
        cases h
        exact ⟨⟨hcmd, hfree, hv, e.symm.trans hs'⟩, rfl⟩
      | encoder _ _ _ | tapDance _ _ | comboOutput _ | overrideReplacement _ => cases h
    · exact absurd (e.symm.trans hs') hs

theorem PlantsBoot.read (h : PlantsBoot f b i) :
    (KeycodeSlot.cell (i.data 1) (i.data 2) (i.data 3)).read f.geometry
      (rawHidReceive f b i).1.eeprom = qkBoot := by
  have e : (rawHidReceive f b i).1.eeprom =
      (Slot.key (i.data 1) (i.data 2) (i.data 3)).set f.geometry b.eeprom
        (beWord (i.data 4) (i.data 5)) := by
    have hskip : ¬ (b.vialUnlockInProgress = true ∧ allowedInProgress i.data = false) := by
      simp [h.free]
    have hcmd : ViaCmd.ofByte (i.data 0) = some .dynamicKeymapSetKeycode := h.cmd
    rw [rawHidReceive, if_neg hskip, rawHidSwitch, hcmd]
    rfl
  have hv : (KeycodeSlot.cell (i.data 1) (i.data 2) (i.data 3)).slot.Valid f.geometry := h.inRange
  rw [e]
  exact (KeycodeSlot.read_set_self hv _).trans h.boot

end Step

/-- No keycode that was not `QK_BOOT` on the board `b` is `QK_BOOT` on `b'`. -/
def NoNewBoot (f : Firmware) (b b' : Board) : Prop :=
  ∀ s : KeycodeSlot, s.read f.geometry b.eeprom ≠ qkBoot → s.read f.geometry b'.eeprom ≠ qkBoot

/-- **The `QK_BOOT` firewall over whole runs.** While a board stays locked and no reset is sent, no
keycode becomes `QK_BOOT` exactly as long as no served `id_dynamic_keymap_set_keycode` carries
`QK_BOOT` to a cell of the keymap that did not hold it at the start. -/
theorem firewall_run (f : Firmware) (b : Board) (is : List HidInput)
    (hlocked : ∀ pre, pre <+: is → (run f b pre).vialUnlocked = false)
    (hreset : ∀ i ∈ is, ¬ IsReset i) :
    (∀ pre, pre <+: is → NoNewBoot f b (run f b pre)) ↔
      (∀ pre i, pre ++ [i] <+: is → PlantsBoot f (run f b pre) i →
        dynamicKeymapGetKeycode f.dims b.eeprom (i.data 1) (i.data 2) (i.data 3) = qkBoot) := by
  constructor
  · intro h pre i hpre hplants
    by_contra hne
    have hafter := h _ hpre (.cell (i.data 1) (i.data 2) (i.data 3)) hne
    rw [run_append_singleton] at hafter
    exact hafter hplants.read
  · intro h pre hpre
    induction pre using List.reverseRecOn with
    | nil => exact fun s hs => hs
    | append_singleton pre i ih =>
      have hpre' : pre <+: is := (List.prefix_append pre [i]).trans hpre
      intro s hs hs'
      rw [run_append_singleton] at hs'
      have hi : ¬ IsReset i := hreset i (hpre.subset (by simp))
      obtain ⟨hplants, rfl⟩ := (rawHidReceive_handled f (run f b pre) i).boot_planted
        (hlocked pre hpre') hi (ih hpre' s hs) hs'
      exact hs (h pre i hpre hplants)

def harmlessRun : List HidInput := [.ofBytes [0xFE, 0x00] 0, .ofBytes [0x05, 0, 0, 0, 0x00, 0x04] 0]

theorem firewall_run_harmless :
    NoNewBoot .onePad .blank (run .onePad .blank harmlessRun) := by
  refine (firewall_run .onePad .blank harmlessRun ?_ ?_).mpr ?_ _ (List.prefix_refl _)
  · intro pre hpre
    simp only [harmlessRun, List.prefix_cons_iff, List.prefix_nil] at hpre
    rcases hpre with rfl | ⟨_, rfl, rfl | ⟨_, rfl, rfl⟩⟩ <;> rfl
  · simp only [harmlessRun, List.forall_mem_cons]
    refine ⟨?_, ?_, nofun⟩ <;> rintro (h | h) <;> cases h
  · intro pre i hpre hplants
    have hi : i ∈ harmlessRun := hpre.subset (by simp)
    simp only [harmlessRun, List.mem_cons, List.not_mem_nil, or_false] at hi
    rcases hi with rfl | rfl
    · cases hplants.cmd
    · exact absurd hplants.boot (by decide)

/-- `id_dynamic_keymap_set_keycode` to the only key of the pad, with `QK_BOOT`. -/
def plantRun : List HidInput := [.ofBytes [0x05, 0, 0, 0, 0x7C, 0x00] 0]

/-- A locked board takes `QK_BOOT` from `id_dynamic_keymap_set_keycode`. -/
theorem firewall_planted :
    (∀ pre, pre <+: plantRun → (run .onePad .blank pre).vialUnlocked = false) ∧
    (∀ i ∈ plantRun, ¬ IsReset i) ∧
    ¬ NoNewBoot .onePad .blank (run .onePad .blank plantRun) := by
  refine ⟨?_, ?_, fun h => h (.cell 0 0 0) (by decide) (by decide)⟩
  · intro pre hpre
    simp only [plantRun, List.prefix_cons_iff, List.prefix_nil] at hpre
    rcases hpre with rfl | ⟨_, rfl, rfl⟩ <;> rfl
  · simp only [plantRun, List.forall_mem_cons]
    refine ⟨?_, nofun⟩
    rintro (h | h) <;> cases h

end Hid
end VialQmk
