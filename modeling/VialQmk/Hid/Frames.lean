import VialQmk.Eeprom.Firewall
import VialQmk.Hid.Via

/-!
# Hid.Frames

What the writers of `via.c` and `qmk_settings.c` leave alone, slot by slot: the layout options, the
settings, the macro area, the bulk keymap command, and the loops of `dynamic_keymap_reset`.
-/

namespace VialQmk
namespace Hid

open Lib Eeprom

variable {g : Geometry} {m m' : EepromMem} {s : Slot}

theorem get_of_below (hv : s.Valid g) (h : ∀ x, g.dynamicKeymapEepromAddr ≤ x → m' x = m x) :
    s.get g m' = s.get g m :=
  Slot.get_congr hv fun x hx _ => h x ((keymap_le_base g.toDims s.table).trans hx)

theorem get_of_settingsFrame (hv : s.Valid g) (ht : s.table ≠ .setting)
    (h : SettingsFrame g.toDims m m') : s.get g m' = s.get g m := by
  refine Slot.get_congr hv fun x hx hx' => h x ?_
  have hkey := keymap_le_base g.toDims s.table
  have hlt := g.eeconfigKeymap_lt
  have hset : g.vialQmkSettingsEepromAddr = (g.region .setting).base := rfl
  have hstop : (g.region .setting).stop = g.vialQmkSettingsEepromAddr + vialQmkSettingsSize := rfl
  rintro (⟨h1, h2⟩ | ⟨h1, h2⟩)
  · rcases Nat.lt_trichotomy s.table.rank Table.setting.rank with hr | hr | hr
    · have := region_chain g.toDims hr
      omega
    · exact ht (rank_injective hr)
    · have := region_chain g.toDims hr
      omega
  · omega

theorem layoutOptionsLoop_of_ge (base n : Nat) (value : UInt32) (m : EepromMem) {x : Nat}
    (h : base + n ≤ x) : layoutOptionsLoop base n value m x = m x := by
  induction n generalizing value m with
  | zero => rfl
  | succ n ih =>
    rw [layoutOptionsLoop, ih _ _ (by omega), eepromUpdateByte, Function.update_of_ne (by omega)]

theorem get_setLayoutOptions (hv : s.Valid g) (value : UInt32) :
    s.get g (viaSetLayoutOptions g.toDims value m) = s.get g m := by
  refine get_of_below hv fun x hx => layoutOptionsLoop_of_ge _ _ _ _ ?_
  simp only [Dims.dynamicKeymapEepromAddr, Dims.viaEepromConfigEnd] at hx
  omega

theorem get_of_macroFrame (hv : s.Valid g) (ht : s.table ≠ .macroByte)
    (h : ∀ x, x < g.dynamicKeymapMacroEepromAddr → m' x = m x) : s.get g m' = s.get g m := by
  refine Slot.get_congr hv fun x _ hx => h x ?_
  have hr : s.table.rank < Table.macroByte.rank := by
    cases h : s.table <;> first | exact absurd h ht | decide
  exact Nat.lt_of_lt_of_le hx (region_chain g.toDims hr)

theorem get_macroReset (hv : s.Valid g) (ht : s.table ≠ .macroByte) :
    s.get g (dynamicKeymapMacroReset g.toDims m) = s.get g m := by
  refine get_of_macroFrame hv ht fun x hx => ?_
  rw [dynamicKeymapMacroReset, macroClear_apply, if_neg (by omega)]

theorem get_macroSetBuffer (hv : s.Valid g) (ht : s.table ≠ .macroByte) (offset size : UInt16)
    (data : Nat) (ram : Ram) :
    s.get g (dynamicKeymapMacroSetBuffer g.toDims m offset size data ram) = s.get g m := by
  refine get_of_macroFrame hv ht fun x hx => ?_
  rw [dynamicKeymapMacroSetBuffer, bufferWrite_apply, if_neg (by omega)]

theorem vialUnlockPoll_frame (f : Firmware) (b : Board) (i : HidInput) :
    ∃ unlocked inProgress counter timer, vialUnlockPoll f b i =
      { b with
        vialUnlocked := unlocked
        vialUnlockInProgress := inProgress
        vialUnlockCounter := counter
        vialUnlockTimer := timer } := by
  unfold vialUnlockPoll
  dsimp only
  split
  · split
    · split
      · exact ⟨_, _, _, _, rfl⟩
      · exact ⟨_, _, _, _, rfl⟩
    · exact ⟨_, _, _, _, rfl⟩
  · exact ⟨_, _, _, _, rfl⟩

theorem forN_succ (n : Nat) (body : Nat → EepromMem → EepromMem) (m : EepromMem) :
    forN (n + 1) body m = body n (forN n body m) := by
  simp [forN, List.range_succ]

theorem get_forN {body : Nat → EepromMem → EepromMem} (n : Nat)
    (h : ∀ k m, s.get g (body k m) = s.get g m) : s.get g (forN n body m) = s.get g m := by
  induction n with
  | zero => rfl
  | succ n ih => rw [forN_succ, h, ih]

theorem get_forN_set (mk : UInt8 → Slot) (hinj : Function.Injective mk) (v : ∀ i, (mk i).Value)
    {i : UInt8} (hv : (mk i).Valid g) {n : Nat} (hi : i.toNat < n) :
    (mk i).get g (forN n (fun k m => (mk k.toUInt8).set g m (v k.toUInt8)) m) = some (v i) := by
  induction n with
  | zero => omega
  | succ n ih =>
    rw [forN_succ]
    by_cases h : n.toUInt8 = i
    · subst h
      exact Slot.get_set_self hv _ _
    · rw [Slot.get_set_of_ne hv (fun h' => h (hinj h').symm)]
      refine ih (Nat.lt_of_le_of_ne (Nat.le_of_lt_succ hi) ?_)
      rintro rfl
      exact h UInt8.ofNat_toNat

theorem get_keymapResetLayer {f : Firmware} (hv : s.Valid f.geometry) (hk : s.table ≠ .key)
    (he : s.table ≠ .encoder) (layer : Nat) (m : EepromMem) :
    s.get f.geometry (keymapResetLayer f layer m) = s.get f.geometry m := by
  have hkey : ∀ layer row column keycode m, s.get f.geometry
      (dynamicKeymapSetKeycode f.dims m layer row column keycode) = s.get f.geometry m :=
    fun layer row column keycode m =>
      Slot.get_set_of_ne (t := .key layer row column) hv (fun h => hk (by rw [h]; rfl)) m keycode
  have hencoder : ∀ layer id clockwise keycode m, s.get f.geometry
      (dynamicKeymapSetEncoder f.dims m layer id clockwise keycode) = s.get f.geometry m :=
    fun layer id clockwise keycode m =>
      Slot.get_set_of_ne (t := .encoder layer id clockwise) hv (fun h => he (by rw [h]; rfl)) m keycode
  rw [keymapResetLayer, get_forN _ fun encoder m => by rw [hencoder, hencoder]]
  exact get_forN _ fun row m => get_forN _ fun column m => hkey _ _ _ _ _

end Hid
end VialQmk
