import VialQmk.Keys.OneshotLayer
import VialQmk.Keys.Report
import VialQmk.Lib.BitsWithin

/-!
# Keys.OneshotMods

One-shot modifiers: the part of `action_util.c` that puts them into a report, and what `process_action` does with
modifiers and keys (`action.c`).

* `ModsState.sendKeyboardReport`: a report that has a key in it uses the one-shot modifiers up.
* `sendKeyboardReport_eq`: a report and what is left behind it.
* `ModsState.effect`: what an event does to the modifiers, and `Spares`: what it may do while one is to come.
-/

namespace VialQmk
namespace Keys

open Lib

def actSwapHands : Nat := 6

def IsSwapHandsOp (code : Nat) : Prop := 0xF0 ≤ code ∧ code ≤ 0xF6
deriving Decidable

/-- `keymap_config.oneshot_enable`, `QS_tapping_toggle`, whether swap hands are built in, and whether the
report is the one with a bit for each key. -/
structure ModsSettings extends OneshotSettings where
  oneshotEnable : Bool
  tappingToggle : Nat
  swapHands : Bool
  nkro : Bool

/-- A report as the host gets it: the modifiers, and the bytes for the keys. -/
structure SentReport where
  mods : Mods
  keys : List (BitVec 8)
deriving DecidableEq

def reportBytes (nkro : Bool) (r : Reports) : List (BitVec 8) :=
  if nkro then r.nkro.bits else r.keyboard.keys.map UInt8.toBitVec

/-- The statics of `action_util.c`, with the reports that went out, the newest first. -/
structure ModsState where
  realMods : Mods
  weakMods : Mods
  weakOverrideMods : Mods
  suppressedMods : Mods
  oneshotMods : Mods
  oneshotLockedMods : Mods
  oneshotTime : UInt16
  reports : Reports
  lastReport : SentReport
  out : List SentReport

namespace ModsState

variable (set : ModsSettings) (now : UInt16) (s : ModsState)

def hasOneshotModsTimedOut : Bool := 0 < set.timeout && set.timeout ≤ now - s.oneshotTime

def addMods (mods : Mods) : ModsState := { s with realMods := s.realMods ||| mods }
def delMods (mods : Mods) : ModsState := { s with realMods := s.realMods &&& ~~~mods }
def addWeakMods (mods : Mods) : ModsState := { s with weakMods := s.weakMods ||| mods }
def delWeakMods (mods : Mods) : ModsState := { s with weakMods := s.weakMods &&& ~~~mods }

def addOneshotMods (mods : Mods) : ModsState :=
  if s.oneshotMods &&& mods ≠ mods then { s with oneshotMods := s.oneshotMods ||| mods, oneshotTime := now } else s

def delOneshotMods (mods : Mods) : ModsState :=
  if s.oneshotMods &&& mods ≠ 0 then
    let oneshotMods := s.oneshotMods &&& ~~~mods
    { s with oneshotMods := oneshotMods, oneshotTime := if oneshotMods ≠ 0 then now else 0 }
  else s

def clearOneshotMods : ModsState := if s.oneshotMods ≠ 0 then { s with oneshotMods := 0, oneshotTime := 0 } else s

def addOneshotLockedMods (mods : Mods) : ModsState := { s with oneshotLockedMods := s.oneshotLockedMods ||| mods }
def delOneshotLockedMods (mods : Mods) : ModsState := { s with oneshotLockedMods := s.oneshotLockedMods &&& ~~~mods }

def overrideMods (mods : Mods) : Mods := mods &&& ~~~s.suppressedMods ||| s.weakOverrideMods

def getModsForReport : Mods × ModsState :=
  if s.oneshotMods ≠ 0 then
    let t := if 0 < set.timeout ∧ s.hasOneshotModsTimedOut set now then s.clearOneshotMods else s
    (s.overrideMods (s.realMods ||| s.weakMods ||| t.oneshotMods),
      if hasAnykey set.nkro s.reports ≠ 0 then t.clearOneshotMods else t)
  else (s.overrideMods (s.realMods ||| s.weakMods), s)

def sendKeyboardReport : ModsState :=
  let built := s.getModsForReport set now
  let report : SentReport := ⟨built.1, reportBytes set.nkro built.2.reports⟩
  if report ≠ built.2.lastReport then { built.2 with lastReport := report, out := report :: built.2.out }
  else built.2

def addKey (code : UInt8) : ModsState := { s with reports := addKeyToReport set.nkro s.reports code }
def delKey (code : UInt8) : ModsState := { s with reports := delKeyFromReport set.nkro s.reports code }

def registerMods (mods : Mods) : ModsState :=
  if mods ≠ 0 then (s.addMods mods).sendKeyboardReport set now else s

def unregisterMods (mods : Mods) : ModsState :=
  if mods ≠ 0 then (s.delMods mods).sendKeyboardReport set now else s

/-- A key that is in the report already is taken out first, and that is sent. -/
def registerCode (code : UInt8) : ModsState :=
  if IsBasicKeycode code.toNat then
    let s := if isKeyPressed set.nkro s.reports code then (s.delKey set code).sendKeyboardReport set now else s
    (s.addKey set code).sendKeyboardReport set now
  else if IsModifierKeycode code.toNat then (s.addMods (modBit code.toNat)).sendKeyboardReport set now
  else s

def unregisterCode (code : UInt8) : ModsState :=
  if IsBasicKeycode code.toNat then (s.delKey set code).sendKeyboardReport set now
  else if IsModifierKeycode code.toNat then (s.delMods (modBit code.toNat)).sendKeyboardReport set now
  else s

def IsStrong (code : UInt8) : Prop := IsModifierKeycode code.toNat ∨ code = 0
deriving Decidable

/-- `ACT_LMODS` and `ACT_RMODS`, and one-shot modifiers that are switched off. -/
def processKey (mods : Mods) (code : UInt8) (pressed : Bool) : ModsState :=
  if pressed then
    let s :=
      if mods ≠ 0 then
        (if IsStrong code then s.addMods mods else s.addWeakMods mods).sendKeyboardReport set now
      else s
    s.registerCode set now code
  else
    let s := s.unregisterCode set now code
    if mods ≠ 0 then
      (if IsStrong code then s.delMods mods else s.delWeakMods mods).sendKeyboardReport set now
    else s

/-- `QS_oneshot_tap_toggle > 1 && tap_count == QS_oneshot_tap_toggle`. -/
def Locks (tapCount : Nat) : Prop := 1 < set.tapToggle ∧ tapCount = set.tapToggle
deriving Decidable

/-- `QS_oneshot_tap_toggle > 1 && tap_count == 1 && (mods & get_mods())`. -/
def Unlocks (mods : Mods) (tapCount : Nat) : Prop := 1 < set.tapToggle ∧ tapCount = 1 ∧ mods &&& s.realMods ≠ 0
deriving Decidable

/-- The release of a one-shot key that was held or that unlocks. -/
def releaseOneshot (mods : Mods) : ModsState :=
  ((s.unregisterMods set now mods).delOneshotMods now mods).delOneshotLockedMods mods

def processOneshot (mods : Mods) (pressed : Bool) (tapCount : Nat) : ModsState :=
  if pressed then
    if tapCount = 0 then s.registerMods set now mods
    else if tapCount = 1 then s.addOneshotMods now mods
    else if Locks set tapCount then
      ((s.registerMods set now mods).delOneshotMods now mods).addOneshotLockedMods mods
    else s
  else if tapCount = 0 then s.releaseOneshot set now mods
  else if s.Unlocks set mods tapCount then s.releaseOneshot set now mods
  else s

end ModsState

/-- The branches of `process_action` that touch the report. -/
inductive ReportAction where
  | key (mods : Mods) (code : UInt8)
  | oneshot (mods : Mods)
  | toggled (mods : Mods)
  | held (mods : Mods)
  | tapped (code : UInt8)
  | nothing

open ActionCode in
/-- The `switch` of `process_action`. A dual-role key has its modifiers or its layer for a hold, its keycode for
a tap. -/
def ReportAction.ofAction (set : ModsSettings) (action tapCount : Nat) : ReportAction :=
  let code := UInt8.ofNat (keyCode action)
  let left : Mods := BitVec.ofNat 8 (keyMods action)
  let modsTap (mods : Mods) : ReportAction :=
    if keyCode action = modsOneshot then (if set.oneshotEnable then .oneshot mods else .key mods code)
    else if keyCode action = modsTapToggle then .toggled mods
    else if 0 < tapCount then .tapped code
    else .held mods
  if kindId action = actMods then .key left code
  else if kindId action = actRmods then .key (left <<< 4) code
  else if kindId action = actLmodsTap then modsTap left
  else if kindId action = actRmodsTap then modsTap (left <<< 4)
  else if kindId action = actLayerMods then .held (BitVec.ofNat 8 (layerModsMods action))
  else if kindId action = actLayerTap ∨ kindId action = actLayerTapExt then
    if opTapToggle ≤ keyCode action ∧ keyCode action ≤ opOneshot then .nothing
    else if 0 < tapCount then .tapped code
    else .nothing
  else if kindId action = actSwapHands ∧ set.swapHands then
    if IsSwapHandsOp (keyCode action) then .nothing
    else if 0 < tapCount then .tapped code
    else .nothing
  else .nothing

namespace ModsState

variable (set : ModsSettings) (now : UInt16) (s : ModsState)

def processReportAction (a : ReportAction) (pressed : Bool) (tapCount : Nat) : ModsState :=
  match a with
  | .key mods code => s.processKey set now mods code pressed
  | .oneshot mods => s.processOneshot set now mods pressed tapCount
  | .toggled mods =>
    if pressed then (if tapCount ≤ set.tappingToggle then s.registerMods set now mods else s)
    else if tapCount < set.tappingToggle then s.unregisterMods set now mods
    else s
  | .held mods => if pressed then s.registerMods set now mods else s.unregisterMods set now mods
  | .tapped code => if pressed then s.registerCode set now code else s.unregisterCode set now code
  | .nothing => s

def processAction (action : Nat) (pressed : Bool) (tapCount : Nat) : ModsState :=
  s.processReportAction set now (.ofAction set action tapCount) pressed tapCount

def exec (pressed : Bool) : ModsState :=
  let s := if pressed then { s with weakMods := 0 } else s
  if set.oneshotEnable ∧ 0 < set.timeout ∧ s.hasOneshotModsTimedOut set now then s.clearOneshotMods else s

end ModsState

/-- A call of `action_exec`, a record that reaches `process_action`, or what the key overrides do. -/
inductive ModsEvent where
  | exec (pressed : Bool) (now : UInt16)
  | record (action : Nat) (pressed : Bool) (tapCount : Nat) (now : UInt16)
  | override (suppressed weakOverride : Mods)
  | report (now : UInt16)

def ModsState.step (set : ModsSettings) (s : ModsState) : ModsEvent → ModsState
  | .exec pressed now => s.exec set now pressed
  | .record action pressed tapCount now => s.processAction set now action pressed tapCount
  | .override suppressed weakOverride => { s with suppressedMods := suppressed, weakOverrideMods := weakOverride }
  | .report now => s.sendKeyboardReport set now

def ModsState.run (set : ModsSettings) (s : ModsState) (events : List ModsEvent) : ModsState :=
  events.foldl (step set) s

namespace ModsState

variable (set : ModsSettings) (now : UInt16) (s : ModsState)

def liveMods : Mods := if 0 < set.timeout ∧ s.hasOneshotModsTimedOut set now then 0 else s.oneshotMods

def builtReport : SentReport :=
  ⟨s.overrideMods (s.realMods ||| s.weakMods ||| s.liveMods set now), reportBytes set.nkro s.reports⟩

def Fresh : Prop := s.liveMods set now = s.oneshotMods
deriving Decidable

theorem clearOneshotMods_eq :
    s.clearOneshotMods = { s with
      oneshotMods := 0, oneshotTime := if s.oneshotMods = 0 then s.oneshotTime else 0 } := by
  unfold clearOneshotMods
  by_cases h : s.oneshotMods = 0#8
  · cases s
    simp_all
  · simp [h]

theorem getModsForReport_fst :
    (s.getModsForReport set now).1 = s.overrideMods (s.realMods ||| s.weakMods ||| s.liveMods set now) := by
  unfold getModsForReport liveMods
  by_cases h : s.oneshotMods = 0#8
  · simp [h]
  · by_cases ht : 0 < set.timeout ∧ s.hasOneshotModsTimedOut set now
    · simp [h, ht, clearOneshotMods_eq]
    · simp [h, ht]

/-- Behind a report, one-shot modifiers are left where it has no key; the rest of the state is as it was. -/
theorem getModsForReport_snd :
    ∃ time, (s.getModsForReport set now).2 =
        { s with
          oneshotMods := if hasAnykey set.nkro s.reports = 0 then s.liveMods set now else 0, oneshotTime := time } ∧
      (time = s.oneshotTime ∨ (s.getModsForReport set now).2.oneshotMods = 0) := by
  unfold getModsForReport liveMods
  by_cases h : s.oneshotMods = 0#8
  · refine ⟨s.oneshotTime, ?_, .inl rfl⟩
    cases s
    simp_all
  · by_cases ht : 0 < set.timeout ∧ s.hasOneshotModsTimedOut set now
    · by_cases hk : hasAnykey set.nkro s.reports = 0
      · refine ⟨0, ?_, .inr ?_⟩ <;> simp [h, ht, hk, clearOneshotMods_eq]
      · refine ⟨0, ?_, .inr ?_⟩ <;> simp [h, ht, hk, clearOneshotMods_eq]
    · by_cases hk : hasAnykey set.nkro s.reports = 0
      · exact ⟨s.oneshotTime, by simp [h, ht, hk], .inl rfl⟩
      · refine ⟨0, ?_, .inr ?_⟩ <;> simp [h, ht, hk, clearOneshotMods_eq]

theorem sendKeyboardReport_eq :
    ∃ time out, s.sendKeyboardReport set now =
        { s with
          oneshotMods := if hasAnykey set.nkro s.reports = 0 then s.liveMods set now else 0, oneshotTime := time
          lastReport := s.builtReport set now, out := out } ∧
      (time = s.oneshotTime ∨ (s.sendKeyboardReport set now).oneshotMods = 0) ∧
      (out = s.out ∨ out = s.builtReport set now :: s.out) := by
  obtain ⟨time, hsnd, htime⟩ := s.getModsForReport_snd set now
  have hreport : (⟨(s.getModsForReport set now).1, reportBytes set.nkro (s.getModsForReport set now).2.reports⟩ :
      SentReport) = s.builtReport set now := by
    rw [getModsForReport_fst, hsnd]
    rfl
  unfold sendKeyboardReport
  simp only [hreport]
  by_cases hlast : s.builtReport set now = (s.getModsForReport set now).2.lastReport
  · rw [if_neg (not_not.mpr hlast)]
    refine ⟨time, s.out, ?_, htime, .inl rfl⟩
    rw [hlast, hsnd]
  · rw [if_pos hlast]
    refine ⟨time, s.builtReport set now :: s.out, ?_, htime, .inr rfl⟩
    rw [hsnd]

variable {set now s}

section Sent

@[simp] theorem sendKeyboardReport_realMods : (s.sendKeyboardReport set now).realMods = s.realMods := by
  obtain ⟨_, _, heq, -⟩ := s.sendKeyboardReport_eq set now
  rw [heq]

@[simp] theorem sendKeyboardReport_weakMods : (s.sendKeyboardReport set now).weakMods = s.weakMods := by
  obtain ⟨_, _, heq, -⟩ := s.sendKeyboardReport_eq set now
  rw [heq]

@[simp] theorem sendKeyboardReport_weakOverrideMods :
    (s.sendKeyboardReport set now).weakOverrideMods = s.weakOverrideMods := by
  obtain ⟨_, _, heq, -⟩ := s.sendKeyboardReport_eq set now
  rw [heq]

@[simp] theorem sendKeyboardReport_suppressedMods :
    (s.sendKeyboardReport set now).suppressedMods = s.suppressedMods := by
  obtain ⟨_, _, heq, -⟩ := s.sendKeyboardReport_eq set now
  rw [heq]

@[simp] theorem sendKeyboardReport_reports : (s.sendKeyboardReport set now).reports = s.reports := by
  obtain ⟨_, _, heq, -⟩ := s.sendKeyboardReport_eq set now
  rw [heq]

@[simp] theorem sendKeyboardReport_lastReport :
    (s.sendKeyboardReport set now).lastReport = s.builtReport set now := by
  obtain ⟨_, _, heq, -⟩ := s.sendKeyboardReport_eq set now
  rw [heq]

@[simp] theorem sendKeyboardReport_oneshotMods :
    (s.sendKeyboardReport set now).oneshotMods =
      if hasAnykey set.nkro s.reports = 0 then s.liveMods set now else 0 := by
  obtain ⟨_, _, heq, -⟩ := s.sendKeyboardReport_eq set now
  rw [heq]

theorem liveMods_within : Within (s.liveMods set now) s.oneshotMods := by
  unfold liveMods
  split
  · exact .zero_left _
  · exact .refl _

theorem Fresh.of_oneshotMods_eq_zero (h : s.oneshotMods = 0) : s.Fresh set now := by
  unfold Fresh liveMods
  simp [h]

theorem Fresh.of_eq {t : ModsState} (h : s.Fresh set now) (hmods : t.oneshotMods = s.oneshotMods)
    (htime : t.oneshotTime = s.oneshotTime) : t.Fresh set now := by
  unfold Fresh liveMods hasOneshotModsTimedOut at *
  rw [hmods, htime]
  exact h

theorem Fresh.send (h : s.Fresh set now) : (s.sendKeyboardReport set now).Fresh set now := by
  obtain ⟨time, out, heq, htime, -⟩ := s.sendKeyboardReport_eq set now
  rcases htime with rfl | hzero
  · by_cases hk : hasAnykey set.nkro s.reports = 0
    · refine h.of_eq ?_ ?_
      · rw [sendKeyboardReport_oneshotMods, if_pos hk, h]
      · rw [heq]
    · refine .of_oneshotMods_eq_zero ?_
      rw [sendKeyboardReport_oneshotMods, if_neg hk]
  · exact .of_oneshotMods_eq_zero hzero

end Sent

end ModsState

/-- What an event does that presses no key: whether it builds reports and with which keys, the real modifiers
that it puts in and takes out, and the one-shot modifiers that it deletes. -/
structure ModsEffect where
  builds : Bool
  keys : Reports
  gains : Mods
  loses : Mods
  drops : Mods

def codeBuilds (code : UInt8) : Bool := IsBasicKeycode code.toNat ∨ IsModifierKeycode code.toNat

def codeMods (code : UInt8) : Mods := if IsModifierKeycode code.toNat then modBit code.toNat else 0

def strongMods (mods : Mods) (code : UInt8) : Mods := if ModsState.IsStrong code then mods else 0

def ModsState.keysWithout (set : ModsSettings) (s : ModsState) (code : UInt8) : Reports :=
  if IsBasicKeycode code.toNat then delKeyFromReport set.nkro s.reports code else s.reports

def ModsState.idle (s : ModsState) : ModsEffect := ⟨false, s.reports, 0, 0, 0⟩

/-- `register_mods` for a press, `unregister_mods` for a release. -/
def ModsState.modsEffect (s : ModsState) (mods : Mods) (pressed : Bool) : ModsEffect :=
  if pressed then ⟨mods ≠ 0, s.reports, mods, 0, 0⟩ else ⟨mods ≠ 0, s.reports, 0, mods, 0⟩

def ModsState.keyEffect (set : ModsSettings) (s : ModsState) (mods : Mods) (code : UInt8) (pressed : Bool) : ModsEffect :=
  if pressed then ⟨mods ≠ 0 ∨ codeBuilds code, s.reports, strongMods mods code ||| codeMods code, 0, 0⟩
  else ⟨mods ≠ 0 ∨ codeBuilds code, s.keysWithout set code, 0, codeMods code ||| strongMods mods code, 0⟩

def ModsState.effect (set : ModsSettings) (s : ModsState) (a : ReportAction) (pressed : Bool) (tapCount : Nat) :
    ModsEffect :=
  match a with
  | .key mods code => s.keyEffect set mods code pressed
  | .tapped code => s.keyEffect set 0 code pressed
  | .held mods => s.modsEffect mods pressed
  | .toggled mods =>
    if (if pressed then tapCount ≤ set.tappingToggle else tapCount < set.tappingToggle) then s.modsEffect mods pressed
    else s.idle
  | .oneshot mods =>
    if tapCount = 0 then { s.modsEffect mods pressed with drops := if pressed then 0 else mods }
    else if pressed then
      if ModsState.Locks set tapCount then { s.modsEffect mods true with drops := mods } else s.idle
    else if s.Unlocks set mods tapCount then { s.modsEffect mods false with drops := mods }
    else s.idle
  | .nothing => s.idle

/-- The modifiers and the keycode of a key other than a modifier. -/
def ReportAction.keyPress : ReportAction → Option (Mods × UInt8)
  | .key mods code => if IsBasicKeycode code.toNat then some (mods, code) else none
  | .tapped code => if IsBasicKeycode code.toNat then some (0, code) else none
  | _ => none

namespace ModsEvent

variable (set : ModsSettings) (m : Mods) (s : ModsState)

def effect : ModsEvent → ModsEffect
  | .record action pressed tapCount _ => s.effect set (.ofAction set action tapCount) pressed tapCount
  | .report _ => { s.idle with builds := true }
  | .exec _ _ | .override _ _ => s.idle

def PressesKey : ModsEvent → Prop
  | .record action pressed tapCount _ => pressed = true ∧ (ReportAction.ofAction set action tapCount).keyPress.isSome
  | _ => False

/-- The one-shot modifiers have not timed out when the event looks at them. -/
def InTime : ModsEvent → Prop
  | .exec _ now | .record _ _ _ now | .report now => s.Fresh set now
  | .override _ _ => True

def Adds : ModsEvent → Prop
  | .record action true 1 _ => ∃ mods, ReportAction.ofAction set action 1 = .oneshot mods ∧ m &&& mods ≠ 0
  | _ => False

/-- The modifiers are real ones behind the event, by a lock for instance. Or the reports that it builds have no key, it
deletes none of the modifiers, and it takes none out of the real ones that is not a one-shot modifier as well. -/
def Spares (e : ModsEvent) : Prop :=
  (Within m (s.realMods ||| (e.effect set s).gains) ∧ m &&& (e.effect set s).loses = 0) ∨
    ((e.effect set s).builds = true → hasAnykey set.nkro (e.effect set s).keys = 0) ∧
      m &&& (e.effect set s).drops = 0 ∧ (m &&& (e.effect set s).loses ≠ 0 → Within m s.oneshotMods)

end ModsEvent

def Along (set : ModsSettings) (P : ModsState → ModsEvent → Prop) : ModsState → List ModsEvent → Prop
  | _, [] => True
  | s, e :: events => P s e ∧ Along set P (s.step set e) events

def UpToNextPress (set : ModsSettings) : ModsState → List ModsEvent → Prop :=
  Along set fun s e => ¬ e.PressesKey set ∧ e.InTime set s

def Spared (set : ModsSettings) (m : Mods) : ModsState → List ModsEvent → Prop :=
  Along set fun s e => e.Spares set m s

def Carried (m : Mods) (s : ModsState) : Prop := Within m s.oneshotMods ∨ Within m s.realMods

/-- The key overrides leave the modifiers; and they are real or weak ones or the key's own, or no report of the press
but its last has a key. -/
def Takes (set : ModsSettings) (m : Mods) (s : ModsState) (mods : Mods) (code : UInt8) : Prop :=
  Within (m &&& s.suppressedMods) s.weakOverrideMods ∧
    (Within m (s.realMods ||| (s.weakMods ||| mods)) ∨
      (mods ≠ 0 → hasAnykey set.nkro s.reports = 0) ∧
        (isKeyPressed set.nkro s.reports code = true → hasAnykey set.nkro (delKeyFromReport set.nkro s.reports code) = 0))

end Keys
end VialQmk
