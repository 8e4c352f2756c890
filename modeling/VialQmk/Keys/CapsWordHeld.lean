import VialQmk.Keys.CapsWord

/-!
# Keys.CapsWordHeld

What keeps a modifier on while Caps Word comes and goes.

* `ModsState.Edits`: what a press and a release make of the modifiers, and of the last report.
-/

namespace VialQmk
namespace Keys

open Lib

def softMods (mods : Mods) (code : UInt8) : Mods := if ModsState.IsStrong code then 0 else mods

namespace ReportAction

/-- The real modifiers that a press turns on and its release off. -/
def realMods (tapCount : Nat) : ReportAction → Mods
  | .key mods code => strongMods mods code ||| codeMods code
  | .oneshot mods => if tapCount = 0 then mods else 0
  | .toggled mods => mods
  | .held mods => mods
  | .tapped code => codeMods code
  | .nothing => 0

def weakMods : ReportAction → Mods
  | .key mods code => softMods mods code
  | _ => 0

def oneshotMods : ReportAction → Mods
  | .oneshot mods => mods
  | _ => 0

end ReportAction

namespace ModsState

variable {set : ModsSettings} {now : UInt16} {m t u : ModsState} {mods real weak realLater weakLater : Mods}
  {code : UInt8}

/-- The modifiers become these, and no one-shot modifier comes in. -/
structure Edits (m t : ModsState) (real weak : Mods) : Prop where
  real_eq : t.realMods = real
  weak_eq : t.weakMods = weak
  locked_eq : t.oneshotLockedMods = m.oneshotLockedMods
  override_eq : t.weakOverrideMods = m.weakOverrideMods
  oneshot : Within t.oneshotMods m.oneshotMods

def Unreported (m t : ModsState) : Prop := t.lastReport = m.lastReport ∧ t.out = m.out

/-- The last report has modifiers that are on, and one-shot modifiers that were to come. -/
def Reported (m t : ModsState) : Prop := Within t.lastReport.mods (t.plainMods ||| m.oneshotMods)

theorem Edits.refl (m : ModsState) : Edits m m m.realMods m.weakMods := ⟨rfl, rfl, rfl, rfl, .refl _⟩

theorem Edits.trans (hmt : Edits m t real weak) (htu : Edits t u realLater weakLater) :
    Edits m u realLater weakLater where
  real_eq := htu.real_eq
  weak_eq := htu.weak_eq
  locked_eq := htu.locked_eq.trans hmt.locked_eq
  override_eq := htu.override_eq.trans hmt.override_eq
  oneshot := htu.oneshot.trans hmt.oneshot

theorem Reported.of_oneshot (h : Reported t u) (hone : Within t.oneshotMods m.oneshotMods) : Reported m u :=
  h.trans ((Within.refl _).or_mono hone)

theorem Reported.of_unreported (h : Reported m t) (hout : Unreported t u) (hplain : Within t.plainMods u.plainMods) :
    Reported m u := by
  unfold Reported
  rw [hout.1]
  exact h.trans (hplain.or_mono (.refl _))

theorem Edits.send (m : ModsState) : Edits m (m.sendKeyboardReport set now) m.realMods m.weakMods := by
  obtain ⟨time, out, heq, -, -⟩ := m.sendKeyboardReport_eq set now
  refine ⟨by simp, by simp, ?_, by simp, send_within⟩
  rw [heq]

theorem Edits.send_of (hlocked : t.oneshotLockedMods = m.oneshotLockedMods)
    (hoverride : t.weakOverrideMods = m.weakOverrideMods) (hone : t.oneshotMods = m.oneshotMods) :
    Edits m (t.sendKeyboardReport set now) t.realMods t.weakMods :=
  .trans ⟨rfl, rfl, hlocked, hoverride, hone ▸ .refl _⟩ (.send t)

theorem Reported.send (m : ModsState) : Reported m (m.sendKeyboardReport set now) := by
  have hplain : (m.sendKeyboardReport set now).plainMods = m.plainMods := by simp [ModsState.plainMods]
  unfold Reported
  rw [hplain, sendKeyboardReport_lastReport]
  exact builtReport_within

variable (set now)

theorem Edits.registerMods (m : ModsState) (mods : Mods) :
    Edits m (m.registerMods set now mods) (m.realMods ||| mods) m.weakMods ∧
      (Unreported m (m.registerMods set now mods) ∨ Reported m (m.registerMods set now mods)) := by
  unfold ModsState.registerMods
  by_cases hmods : mods = 0
  · subst hmods
    rw [if_neg (not_not.mpr rfl)]
    refine ⟨?_, .inl ⟨rfl, rfl⟩⟩
    have hreal : m.realMods ||| 0 = m.realMods := BitVec.or_zero
    exact hreal.symm ▸ .refl m
  · rw [if_pos hmods]
    exact ⟨.send_of rfl rfl rfl, .inr (.send (m.addMods mods))⟩

theorem Edits.unregisterMods (m : ModsState) (mods : Mods) :
    Edits m (m.unregisterMods set now mods) (m.realMods &&& ~~~mods) m.weakMods ∧
      (mods = 0 ∧ m.unregisterMods set now mods = m ∨ Reported m (m.unregisterMods set now mods)) := by
  unfold ModsState.unregisterMods
  by_cases hmods : mods = 0
  · subst hmods
    rw [if_neg (not_not.mpr rfl)]
    refine ⟨?_, .inl ⟨rfl, rfl⟩⟩
    exact (and_not_zero m.realMods).symm ▸ .refl m
  · rw [if_pos hmods]
    exact ⟨.send_of rfl rfl rfl, .inr (.send (m.delMods mods))⟩

theorem codeMods_of_modifier (h : IsModifierKeycode code.toNat) : codeMods code = modBit code.toNat := if_pos h

theorem codeMods_of_other (h : ¬ IsModifierKeycode code.toNat) : codeMods code = 0 := if_neg h

theorem Edits.registerCode (m : ModsState) (code : UInt8) :
    Edits m (m.registerCode set now code) (m.realMods ||| codeMods code) m.weakMods ∧
      (Unreported m (m.registerCode set now code) ∨ Reported m (m.registerCode set now code)) := by
  have hadd (t : ModsState) : Edits t ((t.addKey set code).sendKeyboardReport set now) t.realMods t.weakMods :=
    .send_of rfl rfl rfl
  unfold ModsState.registerCode
  by_cases hbasic : IsBasicKeycode code.toNat
  · have hnone : m.realMods ||| 0 = m.realMods := BitVec.or_zero
    rw [if_pos hbasic, codeMods_of_basic hbasic, hnone]
    by_cases hpressed : isKeyPressed set.nkro m.reports code = true
    · rw [if_pos hpressed]
      have hdel : Edits m ((m.delKey set code).sendKeyboardReport set now) m.realMods m.weakMods :=
        .send_of rfl rfl rfl
      have hlast := hadd ((m.delKey set code).sendKeyboardReport set now)
      rw [hdel.real_eq, hdel.weak_eq] at hlast
      refine ⟨hdel.trans hlast, .inr ?_⟩
      exact (Reported.send (((m.delKey set code).sendKeyboardReport set now).addKey set code)).of_oneshot hdel.oneshot
    · rw [if_neg hpressed]
      exact ⟨hadd m, .inr (.send (m.addKey set code))⟩
  · rw [if_neg hbasic]
    by_cases hmod : IsModifierKeycode code.toNat
    · rw [if_pos hmod, codeMods_of_modifier hmod]
      exact ⟨.send_of rfl rfl rfl,
        .inr (.send (m.addMods (modBit code.toNat)))⟩
    · have hnone : m.realMods ||| 0 = m.realMods := BitVec.or_zero
      rw [if_neg hmod, codeMods_of_other hmod, hnone]
      exact ⟨.refl m, .inl ⟨rfl, rfl⟩⟩

theorem Edits.unregisterCode (m : ModsState) (code : UInt8) :
    Edits m (m.unregisterCode set now code) (m.realMods &&& ~~~codeMods code) m.weakMods ∧
      (codeMods code = 0 ∧ m.unregisterCode set now code = m ∨ Reported m (m.unregisterCode set now code)) := by
  unfold ModsState.unregisterCode
  by_cases hbasic : IsBasicKeycode code.toNat
  · have hnone : m.realMods &&& ~~~0 = m.realMods := and_not_zero m.realMods
    rw [if_pos hbasic, codeMods_of_basic hbasic, hnone]
    exact ⟨.send_of rfl rfl rfl, .inr (.send (m.delKey set code))⟩
  · rw [if_neg hbasic]
    by_cases hmod : IsModifierKeycode code.toNat
    · rw [if_pos hmod, codeMods_of_modifier hmod]
      exact ⟨.send_of rfl rfl rfl,
        .inr (.send (m.delMods (modBit code.toNat)))⟩
    · have hnone : m.realMods &&& ~~~0 = m.realMods := and_not_zero m.realMods
      rw [if_neg hmod, codeMods_of_other hmod, hnone]
      exact ⟨.refl m, .inl ⟨rfl, rfl⟩⟩

theorem Edits.pressMods (m : ModsState) (mods : Mods) (code : UInt8) :
    let t := (if IsStrong code then m.addMods mods else m.addWeakMods mods).sendKeyboardReport set now
    Edits m t (m.realMods ||| strongMods mods code) (m.weakMods ||| softMods mods code) ∧ Reported m t := by
  intro t
  have hreal : m.realMods ||| 0 = m.realMods := BitVec.or_zero
  have hweak : m.weakMods ||| 0 = m.weakMods := BitVec.or_zero
  unfold t strongMods softMods
  by_cases hstrong : IsStrong code
  · rw [if_pos hstrong, if_pos hstrong, if_pos hstrong, hweak]
    exact ⟨.send_of rfl rfl rfl, .send (m.addMods mods)⟩
  · rw [if_neg hstrong, if_neg hstrong, if_neg hstrong, hreal]
    exact ⟨.send_of rfl rfl rfl, .send (m.addWeakMods mods)⟩

theorem Edits.releaseMods (m : ModsState) (mods : Mods) (code : UInt8) :
    let t := (if IsStrong code then m.delMods mods else m.delWeakMods mods).sendKeyboardReport set now
    Edits m t (m.realMods &&& ~~~strongMods mods code) (m.weakMods &&& ~~~softMods mods code) ∧ Reported m t := by
  intro t
  have hreal : m.realMods &&& ~~~0 = m.realMods := and_not_zero m.realMods
  have hweak : m.weakMods &&& ~~~0 = m.weakMods := and_not_zero m.weakMods
  unfold t strongMods softMods
  by_cases hstrong : IsStrong code
  · rw [if_pos hstrong, if_pos hstrong, if_pos hstrong, hweak]
    exact ⟨.send_of rfl rfl rfl, .send (m.delMods mods)⟩
  · rw [if_neg hstrong, if_neg hstrong, if_neg hstrong, hreal]
    exact ⟨.send_of rfl rfl rfl, .send (m.delWeakMods mods)⟩

theorem within_and_not_zero (x : Mods) : Within x (x &&& ~~~0) := by
  have hx : x &&& ~~~0 = x := and_not_zero x
  rw [hx]
  exact .refl x

theorem strongMods_zero (code : UInt8) : strongMods 0 code = 0 := by
  unfold strongMods
  split <;> rfl

theorem softMods_zero (code : UInt8) : softMods 0 code = 0 := by
  unfold softMods
  split <;> rfl

theorem Edits.processKey_press (m : ModsState) (mods : Mods) (code : UInt8) :
    Edits m (m.processKey set now mods code true) (m.realMods ||| strongMods mods code ||| codeMods code)
        (m.weakMods ||| softMods mods code) ∧
      (Unreported m (m.processKey set now mods code true) ∨ Reported m (m.processKey set now mods code true)) := by
  simp only [processKey, if_true]
  by_cases hmods : mods = 0
  · subst hmods
    have hreal : m.realMods ||| 0 = m.realMods := BitVec.or_zero
    have hweak : m.weakMods ||| 0 = m.weakMods := BitVec.or_zero
    rw [if_neg (not_not.mpr rfl), strongMods_zero, softMods_zero, hreal, hweak]
    exact Edits.registerCode set now m code
  · rw [if_pos hmods]
    obtain ⟨hedits, hreported⟩ := Edits.pressMods set now m mods code
    generalize (if IsStrong code then m.addMods mods else m.addWeakMods mods).sendKeyboardReport set now = t
      at hedits hreported ⊢
    obtain ⟨hlater, hsent⟩ := Edits.registerCode set now t code
    rw [hedits.real_eq, hedits.weak_eq] at hlater
    refine ⟨hedits.trans hlater, .inr ?_⟩
    rcases hsent with hout | hsent
    · refine hreported.of_unreported hout ?_
      exact (Grows.registerCode t code).plainMods
    · exact hsent.of_oneshot hedits.oneshot

theorem Edits.processKey_release (m : ModsState) (mods : Mods) (code : UInt8) :
    Edits m (m.processKey set now mods code false) (m.realMods &&& ~~~codeMods code &&& ~~~strongMods mods code)
        (m.weakMods &&& ~~~softMods mods code) ∧
      (mods = 0 ∧ codeMods code = 0 ∧ m.processKey set now mods code false = m ∨
        Reported m (m.processKey set now mods code false)) := by
  simp only [processKey, Bool.false_eq_true, if_false]
  obtain ⟨hedits, hsent⟩ := Edits.unregisterCode set now m code
  by_cases hmods : mods = 0
  · subst hmods
    rw [if_neg (not_not.mpr rfl), strongMods_zero, softMods_zero]
    refine ⟨?_, ?_⟩
    · exact (and_not_zero (m.realMods &&& ~~~codeMods code)).symm ▸ (and_not_zero m.weakMods).symm ▸ hedits
    · rcases hsent with ⟨hcode, hsame⟩ | hreported
      · exact .inl ⟨rfl, hcode, hsame⟩
      · exact .inr hreported
  · rw [if_pos hmods]
    obtain ⟨hlater, hreported⟩ :=
      Edits.releaseMods set now (m.unregisterCode set now code) mods code
    rw [hedits.real_eq, hedits.weak_eq] at hlater
    exact ⟨hedits.trans hlater, .inr (hreported.of_oneshot hedits.oneshot)⟩

variable {set now}

structure Pressed (a : ReportAction) (tapCount : Nat) (m t : ModsState) : Prop where
  real : Within t.realMods (m.realMods ||| (a.realMods tapCount ||| t.oneshotLockedMods))
  weak : Within t.weakMods (m.weakMods ||| a.weakMods)
  locked : Within m.oneshotLockedMods t.oneshotLockedMods
  locks : Within t.oneshotLockedMods (m.oneshotLockedMods ||| a.oneshotMods)
  oneshot : Within t.oneshotMods (m.oneshotMods ||| a.oneshotMods)
  override_eq : t.weakOverrideMods = m.weakOverrideMods
  report : Unreported m t ∨ Reported m t

/-- What the release of an action does. Without a report it has nothing to turn off. -/
structure Released (a : ReportAction) (tapCount : Nat) (m t : ModsState) : Prop where
  real : Within t.realMods (m.realMods &&& ~~~a.realMods tapCount)
  weak : Within t.weakMods (m.weakMods &&& ~~~a.weakMods)
  locked : Within (t.realMods &&& m.oneshotLockedMods) t.oneshotLockedMods
  locks : Within t.oneshotLockedMods m.oneshotLockedMods
  oneshot : Within t.oneshotMods m.oneshotMods
  override_eq : t.weakOverrideMods = m.weakOverrideMods
  report : a.realMods tapCount = 0 ∧ a.weakMods = 0 ∧ t.oneshotLockedMods = m.oneshotLockedMods ∧ Unreported m t ∨
    Reported m t

variable {a : ReportAction} {tapCount : Nat}

theorem Edits.pressed (h : Edits m t real weak) (hreal : Within real (m.realMods ||| a.realMods tapCount))
    (hweak : Within weak (m.weakMods ||| a.weakMods)) (hreport : Unreported m t ∨ Reported m t) :
    Pressed a tapCount m t where
  real := by
    rw [h.real_eq, ← BitVec.or_assoc]
    exact hreal.or_of_left _
  weak := h.weak_eq.symm ▸ hweak
  locked := h.locked_eq.symm ▸ .refl _
  locks := h.locked_eq.symm ▸ .or_left _ _
  oneshot := h.oneshot.or_of_left _
  override_eq := h.override_eq
  report := hreport

theorem Edits.released (h : Edits m t real weak) (hreal : Within real (m.realMods &&& ~~~a.realMods tapCount))
    (hweak : Within weak (m.weakMods &&& ~~~a.weakMods))
    (hreport : (a.realMods tapCount = 0 ∧ a.weakMods = 0 ∧ t = m) ∨ Reported m t) : Released a tapCount m t where
  real := h.real_eq.symm ▸ hreal
  weak := h.weak_eq.symm ▸ hweak
  locked := h.locked_eq.symm ▸ .and_right _ _
  locks := h.locked_eq.symm ▸ .refl _
  oneshot := h.oneshot
  override_eq := h.override_eq
  report := by
    rcases hreport with ⟨hnoReal, hnoWeak, rfl⟩ | hreport
    · exact .inl ⟨hnoReal, hnoWeak, rfl, rfl, rfl⟩
    · exact .inr hreport

theorem addOneshotMods_shape (now : UInt16) (m : ModsState) (mods : Mods) :
    ∃ time, m.addOneshotMods now mods = { m with oneshotMods := m.oneshotMods ||| mods, oneshotTime := time } := by
  have hmods : (m.addOneshotMods now mods).oneshotMods = m.oneshotMods ||| mods := addOneshotMods_eq
  rw [← hmods]
  unfold addOneshotMods
  split
  · exact ⟨now, rfl⟩
  · exact ⟨m.oneshotTime, rfl⟩

theorem delOneshotMods_shape (now : UInt16) (m : ModsState) (mods : Mods) :
    ∃ time, m.delOneshotMods now mods = { m with oneshotMods := m.oneshotMods &&& ~~~mods, oneshotTime := time } := by
  have hmods : (m.delOneshotMods now mods).oneshotMods = m.oneshotMods &&& ~~~mods := delOneshotMods_eq
  rw [← hmods]
  unfold delOneshotMods
  split
  · exact ⟨_, rfl⟩
  · exact ⟨m.oneshotTime, rfl⟩

theorem Pressed.oneshot_lock (m : ModsState) (mods : Mods) (tapCount : Nat) :
    Pressed (.oneshot mods) tapCount m
      (((m.registerMods set now mods).delOneshotMods now mods).addOneshotLockedMods mods) := by
  obtain ⟨hregister, hreport⟩ := Edits.registerMods set now m mods
  obtain ⟨time, hdel⟩ := (m.registerMods set now mods).delOneshotMods_shape now mods
  rw [hdel]
  constructor
  · show Within (m.registerMods set now mods).realMods
      (m.realMods ||| (_ ||| ((m.registerMods set now mods).oneshotLockedMods ||| mods)))
    rw [hregister.real_eq]
    exact (Within.refl _).or_mono ((Within.or_right _ mods).or_of_right _)
  · exact hregister.weak_eq.symm ▸ .or_left _ _
  · exact hregister.locked_eq ▸ .or_left _ _
  · show Within ((m.registerMods set now mods).oneshotLockedMods ||| mods) _
    rw [hregister.locked_eq]
    exact .refl _
  · exact (Within.and_left _ _).trans (hregister.oneshot.or_of_left _)
  · exact hregister.override_eq
  · exact hreport

theorem Pressed.oneshot_key (m : ModsState) (mods : Mods) (tapCount : Nat) :
    Pressed (.oneshot mods) tapCount m (m.processOneshot set now mods true tapCount) := by
  simp only [processOneshot, if_true]
  split_ifs with hhold htap hlocks
  · obtain ⟨hregister, hreport⟩ := Edits.registerMods set now m mods
    refine hregister.pressed ?_ (.or_left _ _) hreport
    rw [ReportAction.realMods, if_pos hhold]
    exact .refl _
  · obtain ⟨time, hadd⟩ := m.addOneshotMods_shape now mods
    rw [hadd]
    exact ⟨.or_left _ _, .or_left _ _, .refl _, .or_left _ _, .refl _, rfl, .inl ⟨rfl, rfl⟩⟩
  · exact .oneshot_lock m mods tapCount
  · exact (Edits.refl m).pressed (.or_left _ _) (.or_left _ _) (.inl ⟨rfl, rfl⟩)

theorem Released.oneshot_off (m : ModsState) (mods : Mods) (tapCount : Nat) :
    Released (.oneshot mods) tapCount m (m.releaseOneshot set now mods) := by
  obtain ⟨hunregister, hreport⟩ := Edits.unregisterMods set now m mods
  unfold releaseOneshot
  obtain ⟨time, hdel⟩ := (m.unregisterMods set now mods).delOneshotMods_shape now mods
  rw [hdel]
  have hown : Within (ReportAction.realMods tapCount (.oneshot mods)) mods := by
    simp only [ReportAction.realMods]
    split
    · exact .refl _
    · exact .zero_left _
  constructor
  · exact hunregister.real_eq.symm ▸ (Within.refl _).and_mono hown.not_mono
  · exact hunregister.weak_eq.symm ▸ within_and_not_zero m.weakMods
  · show Within ((m.unregisterMods set now mods).realMods &&& m.oneshotLockedMods)
      ((m.unregisterMods set now mods).oneshotLockedMods &&& ~~~mods)
    rw [hunregister.real_eq, hunregister.locked_eq, BitVec.and_comm]
    exact (Within.refl _).and_mono (.and_right _ _)
  · exact (Within.and_left _ _).trans (hunregister.locked_eq ▸ .refl _)
  · exact (Within.and_left _ _).trans hunregister.oneshot
  · exact hunregister.override_eq
  · rcases hreport with ⟨rfl, hsame⟩ | hreport
    · refine .inl ⟨?_, rfl, ?_, ?_⟩
      · simp only [ReportAction.realMods]
        split <;> rfl
      · rw [hsame]
        exact and_not_zero m.oneshotLockedMods
      · rw [hsame]
        exact ⟨rfl, rfl⟩
    · exact .inr hreport

theorem Released.oneshot_key (m : ModsState) (mods : Mods) (tapCount : Nat) :
    Released (.oneshot mods) tapCount m (m.processOneshot set now mods false tapCount) := by
  simp only [processOneshot, Bool.false_eq_true, if_false]
  split_ifs with hhold hunlocks
  · exact .oneshot_off m mods tapCount
  · exact .oneshot_off m mods tapCount
  · have hnone : ReportAction.realMods tapCount (.oneshot mods) = 0 := if_neg hhold
    refine (Edits.refl m).released ?_ ?_ (.inl ⟨hnone, rfl, rfl⟩)
    · rw [hnone]
      exact within_and_not_zero m.realMods
    · exact within_and_not_zero m.weakMods

theorem processReportAction_press (m : ModsState) (a : ReportAction) (tapCount : Nat) :
    Pressed a tapCount m (m.processReportAction set now a true tapCount) := by
  cases a with
  | key mods code =>
    obtain ⟨hedits, hreport⟩ := Edits.processKey_press set now m mods code
    refine hedits.pressed ?_ (.refl _) hreport
    rw [BitVec.or_assoc]
    exact .refl _
  | oneshot mods => exact .oneshot_key m mods tapCount
  | toggled mods =>
    obtain ⟨hedits, hreport⟩ := Edits.registerMods set now m mods
    simp only [processReportAction, if_true]
    split
    · exact hedits.pressed (.refl _) (.or_left _ _) hreport
    · exact (Edits.refl m).pressed (.or_left _ _) (.or_left _ _) (.inl ⟨rfl, rfl⟩)
  | held mods =>
    obtain ⟨hedits, hreport⟩ := Edits.registerMods set now m mods
    exact hedits.pressed (.refl _) (.or_left _ _) hreport
  | tapped code =>
    obtain ⟨hedits, hreport⟩ := Edits.registerCode set now m code
    exact hedits.pressed (.refl _) (.or_left _ _) hreport
  | nothing => exact (Edits.refl m).pressed (.or_left _ _) (.or_left _ _) (.inl ⟨rfl, rfl⟩)

theorem processReportAction_release (m : ModsState) (a : ReportAction) (tapCount : Nat)
    (htoggled : ∀ mods, a ≠ .toggled mods) :
    Released a tapCount m (m.processReportAction set now a false tapCount) := by
  have hweak : Within m.weakMods (m.weakMods &&& ~~~0) := within_and_not_zero m.weakMods
  cases a with
  | key mods code =>
    obtain ⟨hedits, hreport⟩ := Edits.processKey_release set now m mods code
    refine hedits.released ?_ (.refl _) ?_
    · rw [BitVec.and_assoc, BitVec.and_comm (~~~codeMods code), ← BitVec.not_or]
      exact .refl _
    · rcases hreport with ⟨rfl, hcode, hsame⟩ | hreport
      · refine .inl ⟨?_, softMods_zero code, hsame⟩
        rw [ReportAction.realMods, strongMods_zero, hcode]
        rfl
      · exact .inr hreport
  | oneshot mods => exact .oneshot_key m mods tapCount
  | toggled mods => exact absurd rfl (htoggled mods)
  | held mods =>
    obtain ⟨hedits, hreport⟩ := Edits.unregisterMods set now m mods
    refine hedits.released (.refl _) hweak ?_
    rcases hreport with ⟨rfl, hsame⟩ | hreport
    · exact .inl ⟨rfl, rfl, hsame⟩
    · exact .inr hreport
  | tapped code =>
    obtain ⟨hedits, hreport⟩ := Edits.unregisterCode set now m code
    refine hedits.released (.refl _) hweak ?_
    rcases hreport with ⟨hcode, hsame⟩ | hreport
    · exact .inl ⟨hcode, rfl, hsame⟩
    · exact .inr hreport
  | nothing =>
    exact (Edits.refl m).released (within_and_not_zero m.realMods) hweak (.inl ⟨rfl, rfl, rfl⟩)

end ModsState

section Shift

variable {cfg : CapsWordConfig} {set : ModsSettings} {f : MagicFlags} {mod code tapCount : Nat} {k : HeldKey}

def IsShiftMod (mod : Nat) : Prop := mod = modLsft ∨ mod = modRsft

theorem IsShiftMod.modConfig (h : IsShiftMod mod) : IsShiftMod (modConfig f mod) := by
  rcases h with rfl | rfl
  · exact .inl (by simp [Keys.modConfig, modLsft])
  · have hright : Keys.modConfig f modRsft = if f.noGui then modLsft else modRsft := by
      simp [Keys.modConfig, modLsft, modRsft]
    rw [hright]
    split
    · exact .inl rfl
    · exact .inr rfl

variable {keycode : Nat}

theorem keycodeConfig_of_le (h : 256 ≤ keycode) : keycodeConfig f keycode = keycode := by
  unfold keycodeConfig
  split
  all_goals
    first
      | rfl
      | omega

theorem shiftTap_code (hmod : IsShiftMod mod) (hcode : code < 256) :
    ∃ base, (base = 0x2200 ∨ base = 0x3200) ∧ actionCode actLmodsTap (mod <<< 8 ||| code) = base + code := by
  rcases hmod with rfl | rfl
  · refine ⟨_, .inl rfl, ?_⟩
    rw [actionCode, ← Nat.or_assoc]
    show (34 <<< 8 ||| code) % 65536 = _
    rw [← Nat.shiftLeft_add_eq_or_of_lt hcode]
    omega
  · refine ⟨_, .inr rfl, ?_⟩
    rw [actionCode, ← Nat.or_assoc]
    show (50 <<< 8 ||| code) % 65536 = _
    rw [← Nat.shiftLeft_add_eq_or_of_lt hcode]
    omega

theorem shiftTap_ofAction (hmod : IsShiftMod mod) (hcode : code < 256) :
    ∃ m : Mods, m ≠ 0 ∧ ReportAction.ofAction set (actionCode actLmodsTap (mod <<< 8 ||| code)) tapCount =
      if code = modsOneshot then (if set.oneshotEnable then .oneshot m else .key m (UInt8.ofNat code))
      else if code = modsTapToggle then .toggled m
      else if 0 < tapCount then .tapped (UInt8.ofNat code)
      else .held m := by
  obtain ⟨base, hbase, haction⟩ := shiftTap_code hmod hcode
  have hkind : ActionCode.kindId (base + code) = base / 0x1000 := by
    unfold ActionCode.kindId
    omega
  have hmods : ActionCode.keyMods (base + code) = 2 := by
    unfold ActionCode.keyMods
    omega
  have hkey : ActionCode.keyCode (base + code) = code := by
    unfold ActionCode.keyCode
    omega
  rw [haction, ReportAction.ofAction]
  rcases hbase with rfl | rfl
  · exact ⟨2, by decide, by simp [hkind, hmods, hkey, actMods, actRmods, actLmodsTap]⟩
  · exact ⟨0x20, by decide, by simp [hkind, hmods, hkey, actMods, actRmods, actLmodsTap, actRmodsTap]⟩

theorem shiftTap_action (hmod : IsShiftMod mod) (hcode : code < 256) (htap : tapCount = 0 ∨ code = 0) :
    let a := ReportAction.ofAction set (actionCode actLmodsTap (mod <<< 8 ||| code)) tapCount
    a.weakMods = 0 ∧ (a.realMods tapCount ≠ 0 ∨ ∃ mods, a = .oneshot mods) := by
  intro a
  obtain ⟨m, hm, ha⟩ : ∃ m : Mods, m ≠ 0 ∧ a = _ := shiftTap_ofAction hmod hcode
  rw [ha]
  by_cases hzero : code = modsOneshot
  · rw [if_pos hzero]
    by_cases henable : set.oneshotEnable = true
    · rw [if_pos henable]
      exact ⟨rfl, .inr ⟨m, rfl⟩⟩
    · rw [if_neg henable]
      subst hzero
      refine ⟨rfl, .inl ?_⟩
      have hkeyMods : ReportAction.realMods tapCount (.key m (UInt8.ofNat modsOneshot)) = m := BitVec.or_zero
      rw [hkeyMods]
      exact hm
  · have htapped : ¬ 0 < tapCount := by
      rcases htap with rfl | hcode
      · exact Nat.lt_irrefl 0
      · exact absurd hcode hzero
    rw [if_neg hzero, if_neg htapped]
    split
    · exact ⟨rfl, .inl hm⟩
    · exact ⟨rfl, .inl hm⟩

theorem osm_action (hmod : IsShiftMod mod) :
    actionForKeycode f (osm mod) = actionCode actLmodsTap (modConfig f mod <<< 8 ||| modsOneshot) := by
  rcases hmod with rfl | rfl
  · rw [actionForKeycode, keycodeConfig_of_le (by decide)]
    rfl
  · rw [actionForKeycode, keycodeConfig_of_le (by decide)]
    rfl

theorem modTap_action (h : IsModTap keycode) : actionForKeycode f keycode =
      actionCode actLmodsTap (modConfig f (packedMods keycode) <<< 8 ||| keycodeConfig f (keycode % 256)) := by
  obtain ⟨hlow, hhigh⟩ := h
  have hbasic : ¬ (IsBasicKeycode keycode ∨ IsModifierKeycode keycode) := by
    unfold IsBasicKeycode IsModifierKeycode
    omega
  have hmods : ¬ IsMods keycode := by
    unfold IsMods
    omega
  have hlayerTap : ¬ IsLayerTap keycode := by
    unfold IsLayerTap
    omega
  have honeshot : ¬ IsOneShotMod keycode := by
    unfold IsOneShotMod
    omega
  have hlayerMod : ¬ IsLayerMod keycode := by
    unfold IsLayerMod
    omega
  rw [actionForKeycode, keycodeConfig_of_le (by omega), if_neg hbasic, if_neg hmods, if_neg hlayerTap, if_neg honeshot,
    if_neg hlayerMod, if_pos ⟨hlow, hhigh⟩]

theorem shift_action (h : keycode = kcLsft ∨ keycode = kcRsft) :
    ReportAction.ofAction set (actionForKeycode f keycode) tapCount = .key 0 (UInt8.ofNat keycode) := by
  rcases h with rfl | rfl
  · have hconfig : keycodeConfig f kcLsft = kcLsft := by simp [keycodeConfig, kcLsft]
    rw [actionForKeycode, hconfig, if_pos (.inr (by decide))]
    rfl
  · have hconfig : keycodeConfig f kcRsft = kcRsft := by simp [keycodeConfig, kcRsft]
    rw [actionForKeycode, hconfig, if_pos (.inr (by decide))]
    rfl

theorem toggle_action : actionForKeycode f qkCapsWordToggle = 0 := by
  rw [actionForKeycode, keycodeConfig_of_le (by decide)]
  rfl

theorem shiftKeycode_cases (h : shiftKeycode keycode tapCount = kcLsft ∨ shiftKeycode keycode tapCount = kcRsft) :
    (∃ mod, IsShiftMod mod ∧ keycode = osm mod) ∨ (IsModTap keycode ∧ tapCount = 0 ∧ IsShiftMod (packedMods keycode)) ∨
      keycode = kcLsft ∨ keycode = kcRsft := by
  unfold shiftKeycode at h
  split_ifs at h with hleft hright htapLeft htapRight
  · exact .inl ⟨modLsft, .inl rfl, hleft⟩
  · exact .inl ⟨modRsft, .inr rfl, hright⟩
  · exact .inr (.inl ⟨htapLeft.1, htapLeft.2.1, .inl htapLeft.2.2⟩)
  · exact .inr (.inl ⟨htapRight.1, htapRight.2.1, .inr htapRight.2.2⟩)
  · exact .inr (.inr h)

theorem HeldKey.action_of_shift
    (h : shiftKeycode k.keycode k.tapCount = kcLsft ∨ shiftKeycode k.keycode k.tapCount = kcRsft) :
    (k.action cfg).weakMods = 0 ∧ ((k.action cfg).realMods k.tapCount ≠ 0 ∨ ∃ mods, k.action cfg = .oneshot mods) := by
  rcases shiftKeycode_cases h with ⟨mod, hmod, hkeycode⟩ | ⟨hmodTap, htap, hmod⟩ | hkeycode
  · rw [HeldKey.action, hkeycode, osm_action hmod]
    exact shiftTap_action hmod.modConfig (by decide) (.inr rfl)
  · rw [HeldKey.action, modTap_action hmodTap]
    have hcode : keycodeConfig cfg.magic (k.keycode % 256) < 256 :=
      keycodeConfig_lt _ (by decide) (Nat.mod_lt _ (by decide))
    exact shiftTap_action hmod.modConfig hcode (.inl htap)
  · rw [HeldKey.action, shift_action hkeycode]
    refine ⟨ModsState.softMods_zero _, .inl ?_⟩
    rcases hkeycode with hleft | hright
    · rw [hleft]
      show strongMods 0 (UInt8.ofNat kcLsft) ||| codeMods (UInt8.ofNat kcLsft) ≠ 0
      decide
    · rw [hright]
      show strongMods 0 (UInt8.ofNat kcRsft) ||| codeMods (UInt8.ofNat kcRsft) ≠ 0
      decide

theorem HeldKey.shiftMod_within (h : (k.action cfg).realMods k.tapCount = 0) :
    Within k.shiftMod (k.oneshotMods cfg) := by
  by_cases hshift : shiftKeycode k.keycode k.tapCount = kcLsft ∨ shiftKeycode k.keycode k.tapCount = kcRsft
  · obtain ⟨mods, haction⟩ := (action_of_shift hshift).2.resolve_left (not_not.mpr h)
    rw [HeldKey.oneshotMods, haction]
    exact .or_right _ _
  · rw [HeldKey.shiftMod, if_neg hshift]
    exact .zero_left _

end Shift

end Keys
end VialQmk
