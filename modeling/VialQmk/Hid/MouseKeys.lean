import VialQmk.Hid.SettingsSync
import VialQmk.Lib.Checked
import Mathlib.Data.List.Induction

/-!
# Hid.MouseKeys

The speed of the mouse keys (`mousekey.c`, accelerated mode), from the settings that the host has written.

* `mousekeyApply`: the settings of 16 bits are put into variables of 8.
* `moveUnit`, `wheelUnit`: one computation, with the pointer's values or the wheel's.
* `mouse_speed_exact_iff`: which settings, counts and accelerations give the exact speed.
-/

namespace VialQmk
namespace Hid

open Lib Eeprom

structure MouseConfig where
  moveMax : Nat
  moveMax_pos : 0 < moveMax
  moveMax_le : moveMax ≤ 127
  wheelMax : Nat
  wheelMax_pos : 0 < wheelMax
  wheelMax_le : wheelMax ≤ 127
  wheelDelta : Nat

/-- `mk_delay` and so on; each keeps whether its setting fitted. -/
structure MouseKeys where
  delay : Checked Nat
  interval : Checked Nat
  maxSpeed : Checked Nat
  timeToMax : Checked Nat
  wheelDelay : Checked Nat
  wheelInterval : Checked Nat
  wheelMaxSpeed : Checked Nat
  wheelTimeToMax : Checked Nat

def qsWord (qs : Mem UInt8) (offset : Nat) : Nat := (beWord (qs (offset + 1)) (qs offset)).toNat

def mousekeyApply (qs : Mem UInt8) : MouseKeys where
  delay := .cast 8 (qsWord qs 4 / 10)
  interval := .cast 8 (qsWord qs 6)
  maxSpeed := .cast 8 (qsWord qs 10)
  timeToMax := .cast 8 (qsWord qs 12)
  wheelDelay := .cast 8 (qsWord qs 14 / 10)
  wheelInterval := .cast 8 (qsWord qs 16)
  wheelMaxSpeed := .cast 8 (qsWord qs 18)
  wheelTimeToMax := .cast 8 (qsWord qs 20)

def speed (accel rep : UInt8) (delta : Nat) (maxSpeed timeToMax : Checked Nat) : Checked Nat :=
  if accel.toNat &&& 1 <<< 0 ≠ 0 then do
    let full ← Checked.int (delta * (← maxSpeed))
    pure (full / 4)
  else if accel.toNat &&& 1 <<< 1 ≠ 0 then do
    let full ← Checked.int (delta * (← maxSpeed))
    pure (full / 2)
  else if accel.toNat &&& 1 <<< 2 ≠ 0 then do
    Checked.int (delta * (← maxSpeed))
  else if rep = 0 then pure delta
  else do
    let time ← timeToMax
    if time ≤ rep.toNat then Checked.int (delta * (← maxSpeed))
    else
      let full ← Checked.int (delta * (← maxSpeed))
      let ramp ← Checked.int (full * rep.toNat)
      Checked.div ramp time

def speedUnit (limit : Nat) (value : Checked Nat) : Checked Nat := do
  let unit ← Checked.cast 16 (← value)
  pure (if limit < unit then limit else if unit = 0 then 1 else unit)

structure MouseBoard where
  settings : SettingsState
  keys : MouseKeys

def moveUnit (cfg : MouseConfig) (b : MouseBoard) (accel rep : UInt8) : Checked Nat :=
  speedUnit cfg.moveMax (speed accel rep (qsWord b.settings.qs 8) b.keys.maxSpeed b.keys.timeToMax)

def wheelUnit (cfg : MouseConfig) (b : MouseBoard) (accel rep : UInt8) : Checked Nat :=
  speedUnit cfg.wheelMax (speed accel rep cfg.wheelDelta b.keys.wheelMaxSpeed b.keys.wheelTimeToMax)

def NotifiesMouse (qsid : UInt16) : Prop := 9 ≤ qsid ∧ qsid ≤ 17

instance : DecidablePred NotifiesMouse := fun _ => inferInstanceAs (Decidable (_ ∧ _))

def MouseBoard.exec (d : Dims) (c : SettingDefaults) (b : MouseBoard) (call : SettingsCall) : MouseBoard :=
  let settings := call.exec d c b.settings
  match call with
  | .init | .reset => ⟨settings, mousekeyApply settings.qs⟩
  | .set qsid ram setting maxsz =>
    if (qmkSettingsSet d c b.settings qsid ram setting maxsz).1 = 0 ∧ NotifiesMouse qsid then
      ⟨settings, mousekeyApply settings.qs⟩
    else ⟨settings, b.keys⟩

/-- The initialization at start-up, and any calls behind it. -/
def runMouse (d : Dims) (c : SettingDefaults) (boot : SettingsState) (calls : List SettingsCall) : MouseBoard :=
  calls.foldl (MouseBoard.exec d c) ⟨qmkSettingsInit d boot, mousekeyApply (qmkSettingsInit d boot).qs⟩

theorem protos_mouse_disjoint {c : SettingDefaults} :
    ∀ p ∈ protos c, ¬ NotifiesMouse p.qsid → p.kind.Disjoint (.field 4 18) := by
  unfold protos
  cases c.mousekey <;> decide

theorem mousekeyApply_congr {qs qs' : Mem UInt8} (h : qs.readBlock 4 18 = qs'.readBlock 4 18) :
    mousekeyApply qs = mousekeyApply qs' := by
  have hbyte (i : Nat) (hi : i < 18) : qs (4 + i) = qs' (4 + i) := by
    have hget := List.getElem_of_eq h (i := i) (by rw [Mem.readBlock_length]; exact hi)
    rwa [Mem.readBlock_getElem, Mem.readBlock_getElem] at hget
  have hword (i : Nat) (hi : i + 1 < 18) : qsWord qs (4 + i) = qsWord qs' (4 + i) := by
    rw [qsWord, qsWord, hbyte i (by omega), Nat.add_assoc, hbyte (i + 1) hi]
  rw [mousekeyApply, mousekeyApply]
  simp only [hword 0 (by decide), hword 2 (by decide), hword 6 (by decide), hword 8 (by decide), hword 10 (by decide),
    hword 12 (by decide), hword 14 (by decide), hword 16 (by decide)]

section Runs

variable {d : Dims} {c : SettingDefaults} {b : MouseBoard}

theorem exec_keys (h : b.keys = mousekeyApply b.settings.qs) (call : SettingsCall) :
    (b.exec d c call).keys = mousekeyApply (b.exec d c call).settings.qs := by
  cases call with
  | init => rfl
  | reset => rfl
  | set qsid ram setting maxsz =>
    rw [MouseBoard.exec]
    show (if _ then _ else _ : MouseBoard).keys = _
    by_cases hnotify : (qmkSettingsSet d c b.settings qsid ram setting maxsz).1 = 0 ∧ NotifiesMouse qsid
    · rw [if_pos hnotify]
    · rw [if_neg hnotify]
      show b.keys = mousekeyApply (qmkSettingsSet d c b.settings qsid ram setting maxsz).2.qs
      rw [h]
      cases hfind : findSetting c qsid with
      | none => rw [qmkSettingsSet_unknown hfind]
      | some p =>
        by_cases hsz : maxsz < p.kind.size
        · rw [qmkSettingsSet_short hfind hsz]
        · obtain ⟨hok, -, hother⟩ := qmkSettingsSet_bytes (d := d) (s := b.settings) hfind hsz ram setting
          obtain ⟨hmem, rfl⟩ := findSetting_mem hfind
          exact mousekeyApply_congr (hother (.field 4 18)
            (protos_mouse_disjoint p hmem fun hmouse => hnotify ⟨hok, hmouse⟩)).symm

theorem runMouse_keys (boot : SettingsState) (calls : List SettingsCall) :
    (runMouse d c boot calls).keys = mousekeyApply (runMouse d c boot calls).settings.qs := by
  induction calls using List.reverseRecOn with
  | nil => rfl
  | append_singleton calls call ih =>
    rw [runMouse, List.foldl_append]
    exact exec_keys ih call

end Runs

def Accelerated (accel : UInt8) : Prop :=
  accel.toNat &&& 1 <<< 0 ≠ 0 ∨ accel.toNat &&& 1 <<< 1 ≠ 0 ∨ accel.toNat &&& 1 <<< 2 ≠ 0

def exactSpeed (accel rep : UInt8) (delta maxSpeed timeToMax : Nat) : Nat :=
  if accel.toNat &&& 1 <<< 0 ≠ 0 then delta * maxSpeed / 4
  else if accel.toNat &&& 1 <<< 1 ≠ 0 then delta * maxSpeed / 2
  else if accel.toNat &&& 1 <<< 2 ≠ 0 then delta * maxSpeed
  else if rep = 0 then delta
  else if timeToMax ≤ rep.toNat then delta * maxSpeed
  else delta * maxSpeed * rep.toNat / timeToMax

def clampSpeed (limit n : Nat) : Nat := max 1 (min limit n)

def SpeedSettingsFit (accel rep : UInt8) (maxSpeed timeToMax : Nat) : Prop :=
  (Accelerated accel ∨ rep ≠ 0 → maxSpeed < 256) ∧ (¬ Accelerated accel ∧ rep ≠ 0 → timeToMax < 256)

section Speed

variable {accel rep : UInt8} {delta maxSpeed timeToMax limit v : Nat}

theorem exact_full {f : Nat → Checked Nat} :
    (Checked.cast 8 maxSpeed >>= fun m => Checked.int (delta * m) >>= f).Exact v ↔
      maxSpeed < 256 ∧ delta * maxSpeed < 2 ^ 31 ∧ (f (delta * maxSpeed)).Exact v :=
  Checked.exact_cast_bind.trans (and_congr_right fun _ => Checked.exact_int_bind)

theorem exact_full_pure {f : Nat → Nat} :
    (Checked.cast 8 maxSpeed >>= fun m => Checked.int (delta * m) >>= fun full => pure (f full)).Exact v ↔
      maxSpeed < 256 ∧ delta * maxSpeed < 2 ^ 31 ∧ f (delta * maxSpeed) = v := by
  rw [exact_full, Checked.exact_pure]

theorem exact_full_only : (Checked.cast 8 maxSpeed >>= fun m => Checked.int (delta * m)).Exact v ↔
    maxSpeed < 256 ∧ delta * maxSpeed < 2 ^ 31 ∧ delta * maxSpeed = v :=
  Checked.exact_cast_bind.trans (and_congr_right fun _ => Checked.exact_int)

theorem exact_ramp : (Checked.cast 8 maxSpeed >>= fun m => Checked.int (delta * m) >>= fun full =>
      Checked.int (full * rep.toNat) >>= fun ramp => Checked.div ramp timeToMax).Exact v ↔
    maxSpeed < 256 ∧ delta * maxSpeed < 2 ^ 31 ∧ delta * maxSpeed * rep.toNat < 2 ^ 31 ∧ timeToMax ≠ 0 ∧
      delta * maxSpeed * rep.toNat / timeToMax = v := by
  rw [exact_full, Checked.exact_int_bind, Checked.exact_div]

theorem settingsFit_accelerated (h : Accelerated accel) :
    SpeedSettingsFit accel rep maxSpeed timeToMax ↔ maxSpeed < 256 :=
  ⟨fun hfit => hfit.1 (.inl h), fun hlt => ⟨fun _ => hlt, fun hnot => absurd h hnot.1⟩⟩

theorem settingsFit_first (h : ¬ Accelerated accel) (hrep : rep = 0) :
    SpeedSettingsFit accel rep maxSpeed timeToMax :=
  ⟨fun hneed => absurd hrep (hneed.resolve_left h), fun hneed => absurd hrep hneed.2⟩

theorem settingsFit_repeat (h : ¬ Accelerated accel) (hrep : rep ≠ 0) :
    SpeedSettingsFit accel rep maxSpeed timeToMax ↔ maxSpeed < 256 ∧ timeToMax < 256 :=
  ⟨fun hfit => ⟨hfit.1 (.inr hrep), hfit.2 ⟨h, hrep⟩⟩, fun hlt => ⟨fun _ => hlt.1, fun _ => hlt.2⟩⟩

theorem ramp_lt {product : Nat} (htime : timeToMax < 256) (hv : product / timeToMax < 2 ^ 16) (hpos : timeToMax ≠ 0) :
    product < 2 ^ 31 := by
  have hlt := (Nat.div_lt_iff_lt_mul (Nat.pos_of_ne_zero hpos)).mp hv
  have hle : 2 ^ 16 * timeToMax ≤ 2 ^ 16 * 255 := Nat.mul_le_mul_left _ (by omega)
  omega

theorem speed_exact_iff (hv : v < 2 ^ 16) :
    (speed accel rep delta (.cast 8 maxSpeed) (.cast 8 timeToMax)).Exact v ↔
      SpeedSettingsFit accel rep maxSpeed timeToMax ∧ exactSpeed accel rep delta maxSpeed timeToMax = v := by
  rw [speed, exactSpeed]
  by_cases h₀ : accel.toNat &&& 1 <<< 0 ≠ 0
  · rw [if_pos h₀, if_pos h₀, exact_full_pure, settingsFit_accelerated (.inl h₀)]
    exact and_congr_right fun _ => ⟨And.right, fun heq => ⟨by omega, heq⟩⟩
  by_cases h₁ : accel.toNat &&& 1 <<< 1 ≠ 0
  · rw [if_neg h₀, if_neg h₀, if_pos h₁, if_pos h₁, exact_full_pure, settingsFit_accelerated (.inr (.inl h₁))]
    exact and_congr_right fun _ => ⟨And.right, fun heq => ⟨by omega, heq⟩⟩
  by_cases h₂ : accel.toNat &&& 1 <<< 2 ≠ 0
  · rw [if_neg h₀, if_neg h₀, if_neg h₁, if_neg h₁, if_pos h₂, if_pos h₂, exact_full_only,
      settingsFit_accelerated (.inr (.inr h₂))]
    exact and_congr_right fun _ => ⟨And.right, fun heq => ⟨by omega, heq⟩⟩
  have hnot : ¬ Accelerated accel := by
    rintro (h | h | h)
    exacts [h₀ h, h₁ h, h₂ h]
  rw [if_neg h₀, if_neg h₀, if_neg h₁, if_neg h₁, if_neg h₂, if_neg h₂]
  by_cases hrep : rep = 0
  · rw [if_pos hrep, if_pos hrep, Checked.exact_pure]
    exact (and_iff_right (settingsFit_first hnot hrep)).symm
  rw [if_neg hrep, if_neg hrep, Checked.exact_cast_bind, settingsFit_repeat hnot hrep]
  by_cases htime : timeToMax ≤ rep.toNat
  · rw [if_pos htime, if_pos htime, exact_full_only]
    constructor
    · rintro ⟨hlt, hspeed, -, heq⟩
      exact ⟨⟨hspeed, hlt⟩, heq⟩
    · rintro ⟨⟨hspeed, hlt⟩, heq⟩
      exact ⟨hlt, hspeed, by omega, heq⟩
  · rw [if_neg htime, if_neg htime, exact_ramp]
    constructor
    · rintro ⟨hlt, hspeed, -, -, -, heq⟩
      exact ⟨⟨hspeed, hlt⟩, heq⟩
    · rintro ⟨⟨hspeed, hlt⟩, heq⟩
      have hpos : timeToMax ≠ 0 := by omega
      have hramp : delta * maxSpeed * rep.toNat < 2 ^ 31 := ramp_lt hlt (heq ▸ hv) hpos
      have hfull : delta * maxSpeed ≤ delta * maxSpeed * rep.toNat :=
        Nat.le_mul_of_pos_right _ (Nat.pos_of_ne_zero fun h => hrep (UInt8.toNat_inj.mp h))
      exact ⟨hlt, hspeed, Nat.lt_of_le_of_lt hfull hramp, hramp, hpos, heq⟩

theorem speedUnit_exact_iff (hlimit : 0 < limit) :
    (speedUnit limit (speed accel rep delta (.cast 8 maxSpeed) (.cast 8 timeToMax))).Exact
        (clampSpeed limit (exactSpeed accel rep delta maxSpeed timeToMax)) ↔
      SpeedSettingsFit accel rep maxSpeed timeToMax ∧ exactSpeed accel rep delta maxSpeed timeToMax < 2 ^ 16 := by
  rw [speedUnit, Checked.exact_bind]
  constructor
  · rintro ⟨v, hspeed, hunit⟩
    obtain ⟨unit, hcast, -⟩ := Checked.exact_bind.mp hunit
    have hlt := (Checked.exact_cast.mp hcast).1
    obtain ⟨hfit, rfl⟩ := (speed_exact_iff hlt).mp hspeed
    exact ⟨hfit, hlt⟩
  · rintro ⟨hfit, hlt⟩
    refine ⟨_, (speed_exact_iff hlt).mpr ⟨hfit, rfl⟩, Checked.exact_bind.mpr
      ⟨_, Checked.exact_cast.mpr ⟨hlt, rfl⟩, Checked.exact_pure.mpr ?_⟩⟩
    generalize exactSpeed accel rep delta maxSpeed timeToMax = n
    rw [clampSpeed]
    split_ifs <;> omega

end Speed

/-- The unit is the exact speed within its bounds, and nothing is cut, overflows or is divided by zero. -/
def MoveExact (cfg : MouseConfig) (b : MouseBoard) (accel rep : UInt8) : Prop :=
  let qs := b.settings.qs
  (moveUnit cfg b accel rep).Exact
    (clampSpeed cfg.moveMax (exactSpeed accel rep (qsWord qs 8) (qsWord qs 10) (qsWord qs 12)))

def WheelExact (cfg : MouseConfig) (b : MouseBoard) (accel rep : UInt8) : Prop :=
  let qs := b.settings.qs
  (wheelUnit cfg b accel rep).Exact
    (clampSpeed cfg.wheelMax (exactSpeed accel rep cfg.wheelDelta (qsWord qs 18) (qsWord qs 20)))

theorem moveExact_iff {cfg : MouseConfig} {b : MouseBoard} {accel rep : UInt8}
    (h : b.keys = mousekeyApply b.settings.qs) :
    MoveExact cfg b accel rep ↔ SpeedSettingsFit accel rep (qsWord b.settings.qs 10) (qsWord b.settings.qs 12) ∧
      exactSpeed accel rep (qsWord b.settings.qs 8) (qsWord b.settings.qs 10) (qsWord b.settings.qs 12) < 2 ^ 16 := by
  rw [MoveExact, moveUnit, h]
  exact speedUnit_exact_iff cfg.moveMax_pos

theorem wheelExact_iff {cfg : MouseConfig} {b : MouseBoard} {accel rep : UInt8}
    (h : b.keys = mousekeyApply b.settings.qs) :
    WheelExact cfg b accel rep ↔ SpeedSettingsFit accel rep (qsWord b.settings.qs 18) (qsWord b.settings.qs 20) ∧
      exactSpeed accel rep cfg.wheelDelta (qsWord b.settings.qs 18) (qsWord b.settings.qs 20) < 2 ^ 16 := by
  rw [WheelExact, wheelUnit, h]
  exact speedUnit_exact_iff cfg.wheelMax_pos

/-- The settings that are needed are below 256, and the speed below 65536. -/
theorem mouse_speed_exact_iff (d : Dims) (c : SettingDefaults) (cfg : MouseConfig) (boot : SettingsState)
    (calls : List SettingsCall) (accel rep : UInt8) :
    let b := runMouse d c boot calls
    let qs := b.settings.qs
    (MoveExact cfg b accel rep ↔ SpeedSettingsFit accel rep (qsWord qs 10) (qsWord qs 12) ∧
      exactSpeed accel rep (qsWord qs 8) (qsWord qs 10) (qsWord qs 12) < 2 ^ 16) ∧
    (WheelExact cfg b accel rep ↔ SpeedSettingsFit accel rep (qsWord qs 18) (qsWord qs 20) ∧
      exactSpeed accel rep cfg.wheelDelta (qsWord qs 18) (qsWord qs 20) < 2 ^ 16) := by
  intro b qs
  have hkeys : b.keys = mousekeyApply qs := runMouse_keys boot calls
  exact ⟨moveExact_iff hkeys, wheelExact_iff hkeys⟩

/-- A delta of 512 and a speed of 128 are accepted: the product is 65536, and the pointer creeps. -/
theorem mouse_speed_wraps :
    let c := { Firmware.onePad.settings with mousekey := true }
    let d := Firmware.onePad.dims
    let cfg : MouseConfig := ⟨127, by decide, by decide, 127, by decide, by decide, 1⟩
    let word (lo hi : UInt8) : Ram := fun a => if a = 0 then lo else hi
    let b := runMouse d c Board.blank.toSettingsState [.set 11 (word 0 2) 0 2, .set 12 (word 128 0) 0 2]
    ((qsWord b.settings.qs 8, qsWord b.settings.qs 10) = (512, 128) ∧ (moveUnit cfg b 4 0).value? = some 1 ∧
      clampSpeed cfg.moveMax (exactSpeed 4 0 512 128 0) = 127) ∧ ¬ MoveExact cfg b 4 0 := by
  intro c d cfg word b
  refine ⟨by decide +kernel, fun h => ?_⟩
  have hlt := ((moveExact_iff (runMouse_keys _ _)).mp h).2
  revert hlt
  decide +kernel

end Hid
end VialQmk
