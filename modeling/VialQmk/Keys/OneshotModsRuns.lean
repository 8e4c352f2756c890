import VialQmk.Keys.OneshotModsSteps

/-!
# Keys.OneshotModsRuns

Tapped modifiers in a run of events.

* `Grows`: what is sent while a key is pressed has no modifiers but the ones that are there.
* `press_sends`: the press of a key sends a report with the key.
* `plainMods_run`: what other modifiers there are, the events have brought.
* `oneshot_apart_run`: behind the press a tapped modifier is none that is to come, unless it is tapped again.
* `tapped_mods_reach_next_press`: where each event between spares it, a tapped modifier is in the report of the next
  key, and in none that a later press sends.
-/

namespace VialQmk
namespace Keys

open Lib

/-! ## Later keys -/

namespace ModsState

variable {set : ModsSettings} {now : UInt16} {s t u : ModsState} {mods m : Mods} {code : UInt8} {pressed : Bool}
  {tapCount : Nat}

def plainMods (s : ModsState) : Mods := s.realMods ||| s.weakMods ||| s.weakOverrideMods

/-- From `s` to `t` modifiers came in, and the reports that went out have these and one-shot modifiers of `s`. -/
structure Grows (s t : ModsState) : Prop where
  real : Within s.realMods t.realMods
  weak : Within s.weakMods t.weakMods
  override_eq : t.weakOverrideMods = s.weakOverrideMods
  oneshot : Within t.oneshotMods s.oneshotMods
  sent : ∃ news, t.out = news ++ s.out ∧ ∀ r ∈ news, Within r.mods (t.plainMods ||| s.oneshotMods)

theorem Grows.plainMods (h : Grows s t) : Within s.plainMods t.plainMods :=
  (h.real.or_mono h.weak).or_mono (h.override_eq ▸ .refl _)

theorem Grows.of_out (hreal : Within s.realMods t.realMods) (hweak : Within s.weakMods t.weakMods)
    (hoverride : t.weakOverrideMods = s.weakOverrideMods) (honeshot : Within t.oneshotMods s.oneshotMods)
    (hout : t.out = s.out) : Grows s t :=
  ⟨hreal, hweak, hoverride, honeshot, [], hout, by simp⟩

theorem Grows.refl (s : ModsState) : Grows s s := .of_out (.refl _) (.refl _) rfl (.refl _) rfl

theorem Grows.trans (hst : Grows s t) (htu : Grows t u) : Grows s u where
  real := hst.real.trans htu.real
  weak := hst.weak.trans htu.weak
  override_eq := htu.override_eq.trans hst.override_eq
  oneshot := htu.oneshot.trans hst.oneshot
  sent := by
    obtain ⟨first, hfirst, hfirstMods⟩ := hst.sent
    obtain ⟨second, hsecond, hsecondMods⟩ := htu.sent
    refine ⟨second ++ first, by rw [hsecond, hfirst, List.append_assoc], fun r hr => ?_⟩
    rcases List.mem_append.mp hr with hr | hr
    · exact (hsecondMods r hr).trans ((Within.refl _).or_mono hst.oneshot)
    · exact (hfirstMods r hr).trans (htu.plainMods.or_mono (.refl _))

theorem overrideMods_within (x : Mods) : Within (s.overrideMods x) (x ||| s.weakOverrideMods) :=
  (Within.and_left _ _).or_mono (.refl _)

theorem builtReport_within : Within (s.builtReport set now).mods (s.plainMods ||| s.oneshotMods) := by
  refine (overrideMods_within _).trans ?_
  have hplain : Within (s.realMods ||| s.weakMods) s.plainMods := .or_left _ _
  have hoverride : Within s.weakOverrideMods s.plainMods := .or_right _ _
  exact (hplain.or_mono liveMods_within).or (hoverride.or_of_left _)

theorem Grows.send (s : ModsState) : Grows s (s.sendKeyboardReport set now) := by
  obtain ⟨time, out, heq, -, hout⟩ := s.sendKeyboardReport_eq set now
  have hplain : (s.sendKeyboardReport set now).plainMods = s.plainMods := by simp [ModsState.plainMods]
  refine ⟨?_, ?_, ?_, ?_, ?_⟩
  · simpa using Within.refl _
  · simpa using Within.refl _
  · simp
  · rw [sendKeyboardReport_oneshotMods]
    split
    · exact liveMods_within
    · exact .zero_left _
  · have hnow : (s.sendKeyboardReport set now).out = out := by rw [heq]
    rw [hplain, hnow]
    rcases hout with rfl | rfl
    · exact ⟨[], rfl, by simp⟩
    · refine ⟨[s.builtReport set now], rfl, fun r hr => ?_⟩
      rw [List.mem_singleton.mp hr]
      exact builtReport_within

theorem Grows.registerMods (s : ModsState) (mods : Mods) : Grows s (s.registerMods set now mods) := by
  unfold ModsState.registerMods
  split
  · have hadd : Grows s (s.addMods mods) := .of_out (.or_left _ _) (.refl _) rfl (.refl _) rfl
    exact hadd.trans (.send _)
  · exact .refl s

theorem Grows.registerCode (s : ModsState) (code : UInt8) : Grows s (s.registerCode set now code) := by
  unfold ModsState.registerCode
  split
  · have hadd (u : ModsState) : Grows u ((u.addKey set code).sendKeyboardReport set now) :=
      (Grows.of_out (.refl _) (.refl _) rfl (.refl _) rfl : Grows u (u.addKey set code)).trans (.send _)
    split
    · have hdel : Grows s (s.delKey set code) := .of_out (.refl _) (.refl _) rfl (.refl _) rfl
      exact (hdel.trans (.send _)).trans (hadd _)
    · exact hadd s
  · split
    · have hadd : Grows s (s.addMods (modBit code.toNat)) := .of_out (.or_left _ _) (.refl _) rfl (.refl _) rfl
      exact hadd.trans (.send _)
    · exact .refl s

theorem Grows.processKey (s : ModsState) (mods : Mods) (code : UInt8) :
    Grows s (s.processKey set now mods code true) := by
  simp only [ModsState.processKey, if_true]
  split
  · split
    · have hadd : Grows s (s.addMods mods) := .of_out (.or_left _ _) (.refl _) rfl (.refl _) rfl
      exact (hadd.trans (.send _)).trans (.registerCode _ _)
    · have hadd : Grows s (s.addWeakMods mods) := .of_out (.refl _) (.or_left _ _) rfl (.refl _) rfl
      exact (hadd.trans (.send _)).trans (.registerCode _ _)
  · exact .registerCode _ _

theorem delOneshotMods_within : Within (s.delOneshotMods now mods).oneshotMods s.oneshotMods := by
  rw [delOneshotMods_eq]
  exact .and_left _ _

theorem Grows.delOneshotMods (s : ModsState) (mods : Mods) : Grows s (s.delOneshotMods now mods) := by
  refine .of_out ?_ ?_ ?_ delOneshotMods_within ?_
  all_goals
    unfold ModsState.delOneshotMods
    split
  · exact .refl _
  · exact .refl _
  · exact .refl _
  · exact .refl _
  · rfl
  · rfl
  · rfl
  · rfl

/-- A press sends reports with what is put in, and with one-shot modifiers that were there before. -/
theorem press_sent (set : ModsSettings) (now : UInt16) (s : ModsState) (a : ReportAction) (tapCount : Nat) :
    ∃ news, (s.processReportAction set now a true tapCount).out = news ++ s.out ∧ ∀ r ∈ news,
      Within r.mods ((s.processReportAction set now a true tapCount).plainMods ||| s.oneshotMods) := by
  cases a with
  | key mods code => exact (Grows.processKey s mods code).sent
  | tapped code => exact (Grows.registerCode s code).sent
  | held mods => exact (Grows.registerMods s mods).sent
  | toggled mods =>
    simp only [processReportAction, if_true]
    split
    · exact (Grows.registerMods s mods).sent
    · exact (Grows.refl s).sent
  | oneshot mods =>
    simp only [processReportAction, processOneshot, if_true]
    split
    · exact (Grows.registerMods s mods).sent
    · split
      · refine ⟨[], ?_, by simp⟩
        unfold addOneshotMods
        split <;> rfl
      · split
        · exact ((Grows.registerMods s mods).trans (.delOneshotMods _ mods)).sent
        · exact (Grows.refl s).sent
  | nothing => exact (Grows.refl s).sent

theorem send_within : Within (s.sendKeyboardReport set now).oneshotMods s.oneshotMods := (Grows.send s).oneshot

theorem unregisterMods_within : Within (s.unregisterMods set now mods).oneshotMods s.oneshotMods := by
  unfold unregisterMods
  split
  · exact send_within (s := s.delMods mods)
  · exact .refl _

theorem unregisterCode_within : Within (s.unregisterCode set now code).oneshotMods s.oneshotMods := by
  unfold ModsState.unregisterCode
  split
  · exact send_within (s := s.delKey set code)
  · split
    · exact send_within (s := s.delMods (modBit code.toNat))
    · exact .refl _

theorem processKey_within : Within (s.processKey set now mods code pressed).oneshotMods s.oneshotMods := by
  cases pressed with
  | true => exact (Grows.processKey s mods code).oneshot
  | false =>
    simp only [processKey, Bool.false_eq_true, if_false]
    split
    · split
      · exact (send_within (s := (s.unregisterCode set now code).delMods mods)).trans unregisterCode_within
      · exact (send_within (s := (s.unregisterCode set now code).delWeakMods mods)).trans unregisterCode_within
    · exact unregisterCode_within

theorem releaseOneshot_within : Within (s.releaseOneshot set now mods).oneshotMods s.oneshotMods :=
  (delOneshotMods_within (s := s.unregisterMods set now mods)).trans unregisterMods_within

theorem oneshot_within (h : ¬ (pressed = true ∧ tapCount = 1)) :
    Within (s.processOneshot set now mods pressed tapCount).oneshotMods s.oneshotMods := by
  cases pressed with
  | true =>
    have hone : tapCount ≠ 1 := fun hone => h ⟨rfl, hone⟩
    simp only [processOneshot, if_true, if_neg hone]
    split
    · exact (Grows.registerMods s mods).oneshot
    · split
      · exact ((Grows.registerMods s mods).trans (.delOneshotMods _ mods)).oneshot
      · exact .refl _
  | false =>
    simp only [processOneshot, Bool.false_eq_true, if_false]
    split
    · exact releaseOneshot_within
    · split
      · exact releaseOneshot_within
      · exact .refl _

theorem processReportAction_within (a : ReportAction)
    (h : ∀ mods, a = .oneshot mods → ¬ (pressed = true ∧ tapCount = 1)) :
    Within (s.processReportAction set now a pressed tapCount).oneshotMods s.oneshotMods := by
  cases a with
  | key mods code => exact processKey_within
  | tapped code =>
    cases pressed with
    | true => exact (Grows.registerCode s code).oneshot
    | false => exact unregisterCode_within
  | held mods =>
    cases pressed with
    | true => exact (Grows.registerMods s mods).oneshot
    | false => exact unregisterMods_within
  | toggled mods =>
    simp only [processReportAction]
    split_ifs
    · exact (Grows.registerMods s mods).oneshot
    · exact .refl _
    · exact unregisterMods_within
    · exact .refl _
  | oneshot mods => exact oneshot_within (h mods rfl)
  | nothing => exact .refl _

end ModsState

section

variable {set : ModsSettings} {now : UInt16} {s t u : ModsState} {mods : Mods} {code : UInt8} {tapCount : Nat}

/-! ## The report that is sent -/

section Sent

variable {nkro : Bool} {r : Reports}

def SentReport.Has (nkro : Bool) (report : SentReport) (code : UInt8) : Prop :=
  if nkro then (report.keys.getD (code.toNat >>> 3) 0).getLsbD (code.toNat &&& 7) = true
  else code.toBitVec ∈ report.keys

instance (report : SentReport) : Decidable (report.Has nkro code) := by
  delta SentReport.Has
  infer_instance

/-- A keycode can be put in: there is a bit for it, it is in a slot, or a slot is free. -/
def HasRoom (nkro : Bool) (r : Reports) (code : UInt8) : Prop :=
  nkro = true ∨ code ∈ r.keyboard.keys ∨ 0 ∈ r.keyboard.keys
deriving Decidable

theorem has_reportBytes {mods : Mods} :
    SentReport.Has nkro ⟨mods, reportBytes nkro r⟩ code ↔
      if nkro then r.nkro.HasBit code else code ∈ r.keyboard.keys := by
  cases nkro with
  | true => exact Iff.rfl
  | false =>
    simp only [SentReport.Has, reportBytes, Bool.false_eq_true, if_false, List.mem_map]
    constructor
    · rintro ⟨key, hkey, heq⟩
      rwa [← UInt8.toBitVec_inj.mp heq]
    · exact fun hcode => ⟨code, hcode, rfl⟩

theorem basic_lt (h : IsBasicKeycode code.toNat) : code ≠ 0 ∧ code.toNat < 8 * nkroReportBits := by
  have hrange := h
  unfold IsBasicKeycode at hrange
  refine ⟨?_, by simp only [nkroReportBits]; omega⟩
  rintro rfl
  exact absurd h.1 (by decide)

theorem has_addKey {mods : Mods} (hbasic : IsBasicKeycode code.toNat) (hroom : HasRoom nkro r code) :
    SentReport.Has nkro ⟨mods, reportBytes nkro (addKeyToReport nkro r code)⟩ code := by
  rw [has_reportBytes]
  cases nkro with
  | true => exact (addKeyBit_hasBit (basic_lt hbasic).2).mpr (.inl rfl)
  | false =>
    show code ∈ (addKeyByte r.keyboard code).keys
    by_cases hmem : code ∈ r.keyboard.keys
    · rwa [addKeyByte_of_mem hmem]
    · have hfree : 0 ∈ r.keyboard.keys := (hroom.resolve_left (by decide)).resolve_left hmem
      obtain ⟨_, _, -, hkeys⟩ := addKeyByte_of_hole hmem hfree
      simp [hkeys]

theorem not_has_of_not_pressed {mods : Mods} (hbasic : IsBasicKeycode code.toNat)
    (hpressed : isKeyPressed nkro r code = false) : ¬ SentReport.Has nkro ⟨mods, reportBytes nkro r⟩ code := by
  rw [has_reportBytes]
  obtain ⟨hne, hlt⟩ := basic_lt hbasic
  rw [isKeyPressed, if_neg hne] at hpressed
  cases nkro with
  | true =>
    simp only [if_true, if_pos (byte_lt hlt)] at hpressed ⊢
    intro hbit
    exact of_decide_eq_false hpressed ((and_one_shiftLeft_ne_zero (bit_lt code)).mpr hbit)
  | false =>
    intro hmem
    simp only [Bool.false_eq_true, if_false] at hpressed hmem
    exact List.any_eq_false.mp hpressed code hmem (decide_eq_true rfl)

theorem not_has_delKey {mods : Mods} (hbasic : IsBasicKeycode code.toNat) :
    ¬ SentReport.Has nkro ⟨mods, reportBytes nkro (delKeyFromReport nkro r code)⟩ code := by
  rw [has_reportBytes]
  obtain ⟨hne, hlt⟩ := basic_lt hbasic
  cases nkro with
  | true => exact fun hbit => ((delKeyBit_hasBit hlt).mp hbit).1 rfl
  | false =>
    show code ∉ (delKeyByte r.keyboard code).keys
    intro hmem
    obtain ⟨key, -, heq⟩ := List.mem_map.mp hmem
    split at heq
    · exact hne heq.symm
    · next hkey => exact hkey heq

theorem roomFor_delKey (hmem : isKeyPressed nkro r code = true) : HasRoom nkro (delKeyFromReport nkro r code) code := by
  cases nkro with
  | true => exact .inl rfl
  | false =>
    refine .inr (.inr ?_)
    show (0 : UInt8) ∈ (delKeyByte r.keyboard code).keys
    unfold isKeyPressed at hmem
    split at hmem
    · cases hmem
    · obtain ⟨key, hkey, heq⟩ := List.any_eq_true.mp hmem
      exact List.mem_map.mpr ⟨key, hkey, if_pos (of_decide_eq_true heq)⟩

end Sent

namespace ModsState

def Synced (set : ModsSettings) (s : ModsState) : Prop := s.lastReport.keys = reportBytes set.nkro s.reports

theorem synced_send : Synced set (s.sendKeyboardReport set now) := by
  rw [Synced, sendKeyboardReport_lastReport, sendKeyboardReport_reports, builtReport]

theorem Synced.of_eq (h : Synced set s) (hreports : t.reports = s.reports) (hlast : t.lastReport = s.lastReport) :
    Synced set t := by
  rw [Synced, hreports, hlast]
  exact h

theorem Synced.registerMods (h : Synced set s) (mods : Mods) : Synced set (s.registerMods set now mods) := by
  unfold ModsState.registerMods
  split
  · exact synced_send
  · exact h

theorem Synced.unregisterMods (h : Synced set s) (mods : Mods) : Synced set (s.unregisterMods set now mods) := by
  unfold ModsState.unregisterMods
  split
  · exact synced_send
  · exact h

theorem Synced.registerCode (h : Synced set s) (code : UInt8) : Synced set (s.registerCode set now code) := by
  unfold ModsState.registerCode
  split
  · exact synced_send
  · split
    · exact synced_send
    · exact h

theorem Synced.unregisterCode (h : Synced set s) (code : UInt8) : Synced set (s.unregisterCode set now code) := by
  unfold ModsState.unregisterCode
  split
  · exact synced_send
  · split
    · exact synced_send
    · exact h

theorem Synced.processKey (h : Synced set s) (mods : Mods) (code : UInt8) (pressed : Bool) :
    Synced set (s.processKey set now mods code pressed) := by
  cases pressed with
  | true =>
    simp only [ModsState.processKey, if_true]
    split
    · exact synced_send.registerCode code
    · exact h.registerCode code
  | false =>
    simp only [ModsState.processKey, Bool.false_eq_true, if_false]
    split
    · exact synced_send
    · exact h.unregisterCode code

theorem Synced.delOneshotMods (h : Synced set s) (mods : Mods) : Synced set (s.delOneshotMods now mods) := by
  unfold ModsState.delOneshotMods
  split
  · exact h
  · exact h

theorem Synced.processOneshot (h : Synced set s) (mods : Mods) (pressed : Bool) (tapCount : Nat) :
    Synced set (s.processOneshot set now mods pressed tapCount) := by
  have hrelease : Synced set (s.releaseOneshot set now mods) :=
    ((h.unregisterMods mods).delOneshotMods mods).of_eq rfl rfl
  cases pressed with
  | true =>
    simp only [ModsState.processOneshot, if_true]
    split_ifs
    · exact h.registerMods mods
    · unfold addOneshotMods
      split
      · exact h.of_eq rfl rfl
      · exact h
    · exact ((h.registerMods mods).delOneshotMods mods).of_eq rfl rfl
    · exact h
  | false =>
    simp only [ModsState.processOneshot, Bool.false_eq_true, if_false]
    split_ifs
    · exact hrelease
    · exact hrelease
    · exact h

theorem Synced.processReportAction (h : Synced set s) (a : ReportAction) (pressed : Bool) (tapCount : Nat) :
    Synced set (s.processReportAction set now a pressed tapCount) := by
  cases a with
  | key mods code => exact h.processKey mods code pressed
  | oneshot mods => exact h.processOneshot mods pressed tapCount
  | toggled mods =>
    simp only [ModsState.processReportAction]
    split_ifs
    · exact h.registerMods mods
    · exact h
    · exact h.unregisterMods mods
    · exact h
  | held mods =>
    cases pressed with
    | true => exact h.registerMods mods
    | false => exact h.unregisterMods mods
  | tapped code =>
    cases pressed with
    | true => exact h.registerCode code
    | false => exact h.unregisterCode code
  | nothing => exact h

theorem Synced.step (h : Synced set s) (e : ModsEvent) : Synced set (s.step set e) := by
  cases e with
  | exec pressed now =>
    have hclear (t : ModsState) (ht : Synced set t) : Synced set
        (if set.oneshotEnable ∧ 0 < set.timeout ∧ t.hasOneshotModsTimedOut set now then t.clearOneshotMods else t) := by
      split
      · rw [clearOneshotMods_eq]
        exact ht.of_eq rfl rfl
      · exact ht
    cases pressed with
    | true => exact hclear { s with weakMods := 0 } (h.of_eq rfl rfl)
    | false => exact hclear s h
  | record action pressed tapCount now => exact h.processReportAction _ pressed tapCount
  | override suppressed weakOverride => exact h.of_eq rfl rfl
  | report now => exact synced_send

theorem Synced.run (h : Synced set s) (events : List ModsEvent) : Synced set (s.run set events) := by
  induction events generalizing s with
  | nil => exact h
  | cons e events ih => exact ih (h.step e)

theorem send_out (hne : s.builtReport set now ≠ s.lastReport) :
    (s.sendKeyboardReport set now).out = s.builtReport set now :: s.out := by
  obtain ⟨time, hsnd, -⟩ := s.getModsForReport_snd set now
  have hreport : (⟨(s.getModsForReport set now).1, reportBytes set.nkro (s.getModsForReport set now).2.reports⟩ :
      SentReport) = s.builtReport set now := by
    rw [getModsForReport_fst, hsnd]
    rfl
  have hlast : (s.getModsForReport set now).2.lastReport = s.lastReport := by rw [hsnd]
  have hout : (s.getModsForReport set now).2.out = s.out := by rw [hsnd]
  unfold sendKeyboardReport
  simp only [hreport, hlast, if_pos hne, hout]

theorem addKey_sent (hsynced : Synced set s) (hbasic : IsBasicKeycode code.toNat)
    (hroom : HasRoom set.nkro s.reports code)
    (hup : ∀ mods, ¬ SentReport.Has set.nkro ⟨mods, reportBytes set.nkro s.reports⟩ code) :
    ((s.addKey set code).sendKeyboardReport set now).out =
        ((s.addKey set code).sendKeyboardReport set now).lastReport :: s.out ∧
      ((s.addKey set code).sendKeyboardReport set now).lastReport.Has set.nkro code := by
  have hhas : ((s.addKey set code).builtReport set now).Has set.nkro code := has_addKey hbasic hroom
  rw [sendKeyboardReport_lastReport]
  refine ⟨send_out fun heq => ?_, hhas⟩
  have hlast : s.lastReport = ⟨s.lastReport.mods, reportBytes set.nkro s.reports⟩ := by
    rw [← hsynced]
  refine hup s.lastReport.mods (hlast ▸ ?_)
  rw [heq] at hhas
  exact hhas

theorem registerCode_sent (hsynced : Synced set s) (hbasic : IsBasicKeycode code.toNat)
    (hroom : HasRoom set.nkro s.reports code) :
    ∃ news, (s.registerCode set now code).out = (s.registerCode set now code).lastReport :: (news ++ s.out) ∧
      (s.registerCode set now code).lastReport.Has set.nkro code := by
  unfold ModsState.registerCode
  rw [if_pos hbasic]
  cases hpressed : isKeyPressed set.nkro s.reports code with
  | true =>
    simp only [if_true]
    have hdown : Synced set ((s.delKey set code).sendKeyboardReport set now) := synced_send
    have hfreed : HasRoom set.nkro ((s.delKey set code).sendKeyboardReport set now).reports code := by
      rw [sendKeyboardReport_reports]
      exact roomFor_delKey hpressed
    have hout : ∀ mods, ¬ SentReport.Has set.nkro
        ⟨mods, reportBytes set.nkro ((s.delKey set code).sendKeyboardReport set now).reports⟩ code := by
      rw [sendKeyboardReport_reports]
      exact fun mods => not_has_delKey hbasic
    have hfirst : Grows (s.delKey set code) ((s.delKey set code).sendKeyboardReport set now) := .send _
    obtain ⟨news, hnews, -⟩ := hfirst.sent
    obtain ⟨hsent, hhas⟩ := addKey_sent hdown hbasic hfreed hout
    refine ⟨news, ?_, hhas⟩
    rw [hsent, hnews]
    rfl
  | false =>
    simp only [Bool.false_eq_true, if_false]
    exact ⟨[], addKey_sent hsynced hbasic hroom fun mods => not_has_of_not_pressed hbasic hpressed⟩

theorem press_sends {a : ReportAction} (hkey : a.keyPress = some (mods, code)) (hsynced : Synced set s)
    (hroom : HasRoom set.nkro s.reports code) :
    let next := s.processReportAction set now a true tapCount
    ∃ news, next.out = next.lastReport :: (news ++ s.out) ∧ next.lastReport.Has set.nkro code := by
  cases a with
  | key mods' code' =>
    simp only [ReportAction.keyPress, Option.ite_none_right_eq_some, Option.some.injEq, Prod.mk.injEq] at hkey
    obtain ⟨hbasic, rfl, rfl⟩ := hkey
    simp only [ModsState.processReportAction, ModsState.processKey, if_true]
    split
    · have hweak : ¬ IsStrong code' := by
        obtain ⟨hne, -⟩ := basic_lt hbasic
        rintro (hmod | hzero)
        · unfold IsBasicKeycode at hbasic
          unfold IsModifierKeycode at hmod
          omega
        · exact hne hzero
      rw [if_neg hweak]
      have hsent : Synced set ((s.addWeakMods mods').sendKeyboardReport set now) := synced_send
      have hroom' : HasRoom set.nkro ((s.addWeakMods mods').sendKeyboardReport set now).reports code' := by
        rw [sendKeyboardReport_reports]
        exact hroom
      have hweakSent : Grows (s.addWeakMods mods') ((s.addWeakMods mods').sendKeyboardReport set now) := .send _
      obtain ⟨first, hfirst, -⟩ := hweakSent.sent
      obtain ⟨news, hout, hhas⟩ := registerCode_sent hsent hbasic hroom'
      refine ⟨news ++ first, ?_, hhas⟩
      rw [hout, hfirst, List.append_assoc]
      rfl
    · exact registerCode_sent hsynced hbasic hroom
  | tapped code' =>
    simp only [ReportAction.keyPress, Option.ite_none_right_eq_some, Option.some.injEq, Prod.mk.injEq] at hkey
    obtain ⟨hbasic, -, rfl⟩ := hkey
    exact registerCode_sent hsynced hbasic hroom
  | held _ => cases hkey
  | toggled _ => cases hkey
  | oneshot _ => cases hkey
  | nothing => cases hkey

end ModsState

/-! ## Where the other modifiers come from -/

/-- The modifiers that a press adds, one-shot modifiers apart. -/
def ReportAction.brings (set : ModsSettings) (tapCount : Nat) : ReportAction → Mods
  | .key mods code => mods ||| codeMods code
  | .oneshot mods => if tapCount = 0 ∨ ModsState.Locks set tapCount then mods else 0
  | .toggled mods => if tapCount ≤ set.tappingToggle then mods else 0
  | .held mods => mods
  | .tapped code => codeMods code
  | .nothing => 0

def ModsEvent.brings (set : ModsSettings) : ModsEvent → Mods
  | .record action true tapCount _ => (ReportAction.ofAction set action tapCount).brings set tapCount
  | .override _ weakOverride => weakOverride
  | .record _ false _ _ | .exec _ _ | .report _ => 0

namespace ModsState

/-- From `s` to `t` no modifier came in but those of `x`. -/
structure Brought (x : Mods) (s t : ModsState) : Prop where
  real : Within t.realMods (s.realMods ||| x)
  weak : Within t.weakMods (s.weakMods ||| x)
  override_eq : t.weakOverrideMods = s.weakOverrideMods

theorem Brought.plainMods {x : Mods} (h : Brought x s t) : Within t.plainMods (s.plainMods ||| x) := by
  have hreal : Within s.realMods s.plainMods := (Within.or_left _ _).or_of_left _
  have hweak : Within s.weakMods s.plainMods := (Within.or_right _ _).or_of_left _
  have hoverride : Within s.weakOverrideMods s.plainMods := .or_right _ _
  refine .or (.or (h.real.trans (hreal.or_mono (.refl _))) (h.weak.trans (hweak.or_mono (.refl _)))) ?_
  rw [h.override_eq]
  exact hoverride.or_of_left _

theorem Brought.of_eq {x : Mods} (hreal : t.realMods = s.realMods) (hweak : t.weakMods = s.weakMods)
    (hoverride : t.weakOverrideMods = s.weakOverrideMods) : Brought x s t :=
  ⟨hreal ▸ .or_left _ _, hweak ▸ .or_left _ _, hoverride⟩

theorem Brought.mono {x y : Mods} (h : Brought x s t) (hxy : Within x y) : Brought y s t :=
  ⟨h.real.trans ((Within.refl _).or_mono hxy), h.weak.trans ((Within.refl _).or_mono hxy), h.override_eq⟩

theorem Brought.trans {x : Mods} (h : Brought x s t) (h' : Brought x t u) : Brought x s u :=
  ⟨h'.real.trans (.or h.real (.or_right _ _)), h'.weak.trans (.or h.weak (.or_right _ _)),
    h'.override_eq.trans h.override_eq⟩

variable (x : Mods)

theorem brought_send (s : ModsState) : Brought x s (s.sendKeyboardReport set now) :=
  .of_eq sendKeyboardReport_realMods sendKeyboardReport_weakMods sendKeyboardReport_weakOverrideMods

theorem brought_addMods (s : ModsState) : Brought x s (s.addMods x) :=
  ⟨.refl _, .or_left _ _, rfl⟩

theorem brought_addWeakMods (s : ModsState) : Brought x s (s.addWeakMods x) :=
  ⟨.or_left _ _, .refl _, rfl⟩

theorem brought_delMods (s : ModsState) : Brought 0 s (s.delMods x) :=
  ⟨(Within.and_left _ _).or_of_left _, .or_left _ _, rfl⟩

theorem brought_delWeakMods (s : ModsState) : Brought 0 s (s.delWeakMods x) :=
  ⟨.or_left _ _, (Within.and_left _ _).or_of_left _, rfl⟩

theorem brought_registerMods (s : ModsState) : Brought mods s (s.registerMods set now mods) := by
  unfold registerMods
  split
  · exact (brought_addMods mods s).trans (brought_send _ _)
  · exact .of_eq rfl rfl rfl

theorem brought_unregisterMods (s : ModsState) : Brought 0 s (s.unregisterMods set now mods) := by
  unfold unregisterMods
  split
  · exact (brought_delMods mods s).trans (brought_send _ _)
  · exact .of_eq rfl rfl rfl

theorem brought_registerCode (s : ModsState) : Brought (codeMods code) s (s.registerCode set now code) := by
  have hadd (u : ModsState) : Brought (codeMods code) u ((u.addKey set code).sendKeyboardReport set now) :=
    (Brought.of_eq rfl rfl rfl : Brought _ u (u.addKey set code)).trans (brought_send _ _)
  unfold registerCode
  split
  · split
    · have hdel : Brought (codeMods code) s (s.delKey set code) := .of_eq rfl rfl rfl
      exact (hdel.trans (brought_send _ _)).trans (hadd _)
    · exact hadd s
  · split
    · next hmod =>
      rw [codeMods, if_pos hmod]
      exact (brought_addMods _ s).trans (brought_send _ _)
    · exact .of_eq rfl rfl rfl

theorem brought_unregisterCode (s : ModsState) : Brought 0 s (s.unregisterCode set now code) := by
  unfold unregisterCode
  split
  · exact (Brought.of_eq rfl rfl rfl : Brought 0 s (s.delKey set code)).trans (brought_send _ _)
  · split
    · exact (brought_delMods _ s).trans (brought_send _ _)
    · exact .of_eq rfl rfl rfl

theorem brought_processKey_press (s : ModsState) :
    Brought (mods ||| codeMods code) s (s.processKey set now mods code true) := by
  have hcode (t : ModsState) : Brought (mods ||| codeMods code) t (t.registerCode set now code) :=
    (brought_registerCode t).mono (.or_right _ _)
  simp only [processKey, if_true]
  split
  · split
    · exact (((brought_addMods mods s).mono (.or_left _ _)).trans (brought_send _ _)).trans (hcode _)
    · exact (((brought_addWeakMods mods s).mono (.or_left _ _)).trans (brought_send _ _)).trans (hcode _)
  · exact hcode s

theorem brought_processKey_release (s : ModsState) : Brought 0 s (s.processKey set now mods code false) := by
  have hcode : Brought 0 s (s.unregisterCode set now code) := brought_unregisterCode s
  simp only [processKey, Bool.false_eq_true, if_false]
  split
  · split
    · exact (hcode.trans (brought_delMods mods _)).trans (brought_send _ _)
    · exact (hcode.trans (brought_delWeakMods mods _)).trans (brought_send _ _)
  · exact hcode

theorem brought_delOneshotMods (s : ModsState) : Brought x s (s.delOneshotMods now mods) := by
  unfold delOneshotMods
  split <;> exact .of_eq rfl rfl rfl

theorem brought_addOneshotMods (s : ModsState) : Brought x s (s.addOneshotMods now mods) := by
  unfold addOneshotMods
  split <;> exact .of_eq rfl rfl rfl

theorem brought_releaseOneshot (s : ModsState) : Brought 0 s (s.releaseOneshot set now mods) :=
  ((brought_unregisterMods s).trans (brought_delOneshotMods 0 _)).trans (.of_eq rfl rfl rfl)

theorem brought_processOneshot (s : ModsState) (pressed : Bool) :
    Brought (if pressed then (ReportAction.oneshot mods).brings set tapCount else 0) s
      (s.processOneshot set now mods pressed tapCount) := by
  cases pressed with
  | true =>
    simp only [processOneshot, ReportAction.brings, if_true]
    by_cases hzero : tapCount = 0
    · rw [if_pos (.inl hzero), if_pos hzero]
      exact brought_registerMods s
    · rw [if_neg hzero]
      by_cases hone : tapCount = 1
      · rw [if_pos hone]
        exact brought_addOneshotMods _ s
      · rw [if_neg hone]
        by_cases hlocks : Locks set tapCount
        · rw [if_pos (.inr hlocks), if_pos hlocks]
          exact ((brought_registerMods s).trans (brought_delOneshotMods _ _)).trans (.of_eq rfl rfl rfl)
        · rw [if_neg hlocks]
          exact .of_eq rfl rfl rfl
  | false =>
    simp only [processOneshot, Bool.false_eq_true, if_false]
    split_ifs
    · exact brought_releaseOneshot s
    · exact brought_releaseOneshot s
    · exact .of_eq rfl rfl rfl

theorem brought_processReportAction (s : ModsState) (a : ReportAction) (pressed : Bool) :
    Brought (if pressed then a.brings set tapCount else 0) s
      (s.processReportAction set now a pressed tapCount) := by
  cases a with
  | key mods code =>
    cases pressed with
    | true => exact brought_processKey_press s
    | false => exact brought_processKey_release s
  | oneshot mods => exact brought_processOneshot s pressed
  | toggled mods =>
    cases pressed with
    | true =>
      simp only [processReportAction, ReportAction.brings, if_true]
      split
      · exact brought_registerMods s
      · exact .of_eq rfl rfl rfl
    | false =>
      simp only [processReportAction, Bool.false_eq_true, if_false]
      split
      · exact brought_unregisterMods s
      · exact .of_eq rfl rfl rfl
  | held mods =>
    cases pressed with
    | true => exact brought_registerMods s
    | false => exact brought_unregisterMods s
  | tapped code =>
    cases pressed with
    | true => exact brought_registerCode s
    | false => exact brought_unregisterCode s
  | nothing => exact .of_eq rfl rfl rfl

theorem plainMods_step (s : ModsState) (e : ModsEvent) :
    Within (s.step set e).plainMods (s.plainMods ||| e.brings set) := by
  cases e with
  | exec pressed now =>
    have hclear (t : ModsState) : Within
        (if set.oneshotEnable ∧ 0 < set.timeout ∧ t.hasOneshotModsTimedOut set now then t.clearOneshotMods
          else t).plainMods t.plainMods := by
      split
      · rw [clearOneshotMods_eq]
        exact .refl _
      · exact .refl _
    cases pressed with
    | true =>
      have hweak : Within ({ s with weakMods := 0 } : ModsState).plainMods s.plainMods :=
        ((Within.refl _).or_mono (.zero_left _)).or_mono (.refl _)
      exact ((hclear _).trans hweak).or_of_left _
    | false => exact (hclear s).or_of_left _
  | record action pressed tapCount now =>
    cases pressed with
    | true => exact (brought_processReportAction s (.ofAction set action tapCount) true).plainMods
    | false => exact (brought_processReportAction s (.ofAction set action tapCount) false).plainMods
  | override suppressed weakOverride =>
    have hreal : Within (s.realMods ||| s.weakMods) s.plainMods := .or_left _ _
    exact hreal.or_mono (.refl _)
  | report now => exact (brought_send 0 s).plainMods

theorem plainMods_run (s : ModsState) (events : List ModsEvent) :
    Within (s.run set events).plainMods (s.plainMods ||| unionOf (ModsEvent.brings set) events) := by
  induction events generalizing s with
  | nil => exact .or_left _ _
  | cons e events ih =>
    refine (ih (s.step set e)).trans (.or ((plainMods_step s e).trans ?_) ?_)
    · exact (Within.refl _).or_mono (.or_left _ _)
    · exact (Within.or_right (e.brings set) _).or_of_right _

end ModsState

end

/-! ## The run -/

section Run

variable {set : ModsSettings} {s : ModsState} {m : Mods} {e : ModsEvent} {events : List ModsEvent}

theorem exec_oneshotMods {now : UInt16} (pressed : Bool) (h : s.Fresh set now) :
    (s.exec set now pressed).oneshotMods = s.oneshotMods := by
  have hclear (t : ModsState) (ht : t.Fresh set now) :
      (if set.oneshotEnable ∧ 0 < set.timeout ∧ t.hasOneshotModsTimedOut set now then t.clearOneshotMods
        else t).oneshotMods = t.oneshotMods := by
    split
    · next hout =>
      unfold ModsState.Fresh ModsState.liveMods at ht
      rw [if_pos hout.2] at ht
      rw [ModsState.clearOneshotMods_eq]
      exact ht
    · rfl
  cases pressed with
  | true => exact hclear { s with weakMods := 0 } (h.of_eq rfl rfl)
  | false => exact hclear s h

theorem exec_realMods {now : UInt16} (pressed : Bool) : (s.exec set now pressed).realMods = s.realMods := by
  have hclear (t : ModsState) :
      (if set.oneshotEnable ∧ 0 < set.timeout ∧ t.hasOneshotModsTimedOut set now then t.clearOneshotMods
        else t).realMods = t.realMods := by
    split
    · rw [ModsState.clearOneshotMods_eq]
    · rfl
  cases pressed with
  | true => exact hclear { s with weakMods := 0 }
  | false => exact hclear s

theorem oneshot_kept (hm : Within m s.oneshotMods)
    (hkeys : (e.effect set s).builds = true → hasAnykey set.nkro (e.effect set s).keys = 0)
    (hdrops : m &&& (e.effect set s).drops = 0) (hquiet : ¬ e.PressesKey set) (hintime : e.InTime set s) :
    Within m (s.step set e).oneshotMods := by
  cases e with
  | exec pressed now => exact (exec_oneshotMods pressed hintime).symm ▸ hm
  | record action pressed tapCount now => exact ModsState.Fresh.keeps _ hintime hquiet hm hkeys hdrops
  | override suppressed weakOverride => exact hm
  | report now => exact (ModsState.Fresh.send_eq hintime (hkeys rfl)).symm ▸ hm

theorem real_kept (hm : Within m (s.realMods ||| (e.effect set s).gains)) (hloses : m &&& (e.effect set s).loses = 0) :
    Within m (s.step set e).realMods := by
  cases e with
  | exec pressed now => exact (exec_realMods pressed).symm ▸ (by simpa [ModsEvent.effect, ModsState.idle] using hm)
  | record action pressed tapCount now => exact ModsState.within_realMods _ hm hloses
  | override suppressed weakOverride =>
    have hreal : Within m s.realMods := by simpa [ModsEvent.effect, ModsState.idle] using hm
    exact hreal
  | report now => simpa [ModsState.step, ModsEvent.effect, ModsState.idle] using hm

theorem ModsEvent.Spares.carried (h : e.Spares set m s) (hm : Carried m s) (hquiet : ¬ e.PressesKey set)
    (hintime : e.InTime set s) : Carried m (s.step set e) := by
  rcases h with ⟨hreal, hloses⟩ | ⟨hkeys, hdrops, hloses⟩
  · exact .inr (real_kept hreal hloses)
  · by_cases honeshot : Within m s.oneshotMods
    · exact .inl (oneshot_kept honeshot hkeys hdrops hquiet hintime)
    · have hreal : Within m s.realMods := hm.resolve_left honeshot
      exact .inr (real_kept (hreal.or_of_left _) (not_not.mp fun hne => honeshot (hloses hne)))

theorem Spared.carried (h : Spared set m s events) (hquiet : UpToNextPress set s events) (hm : Carried m s) :
    Carried m (s.run set events) := by
  induction events generalizing s with
  | nil => exact hm
  | cons e events ih =>
    obtain ⟨hspares, hrest⟩ := h
    obtain ⟨⟨hkey, hintime⟩, hquietRest⟩ := hquiet
    exact ih hrest hquietRest (hspares.carried hm hkey hintime)

theorem oneshot_apart_step (h : m &&& s.oneshotMods = 0) (hadds : ¬ e.Adds set m) :
    m &&& (s.step set e).oneshotMods = 0 := by
  cases e with
  | exec pressed now =>
    have hclear (t : ModsState) :
        Within (if set.oneshotEnable ∧ 0 < set.timeout ∧ t.hasOneshotModsTimedOut set now then t.clearOneshotMods
          else t).oneshotMods t.oneshotMods := by
      split
      · rw [ModsState.clearOneshotMods_eq]
        exact .zero_left _
      · exact .refl _
    refine Within.and_eq_zero ?_ h
    cases pressed with
    | true => exact hclear { s with weakMods := 0 }
    | false => exact hclear s
  | record action pressed tapCount now =>
    by_cases htap : ∃ mods, ReportAction.ofAction set action tapCount = .oneshot mods ∧ pressed = true ∧ tapCount = 1
    · obtain ⟨mods, haction, rfl, rfl⟩ := htap
      have hmods : m &&& mods = 0 := by
        by_contra hne
        exact hadds ⟨mods, haction, hne⟩
      have hstep : (s.step set (.record action true 1 now)).oneshotMods = s.oneshotMods ||| mods := by
        simp only [ModsState.step, ModsState.processAction, haction]
        exact ModsState.addOneshotMods_eq
      rw [hstep, and_eq_zero_iff_getLsbD]
      intro i hi
      rw [BitVec.getLsbD_or, and_eq_zero_iff_getLsbD.mp h i hi, and_eq_zero_iff_getLsbD.mp hmods i hi]
      rfl
    · refine Within.and_eq_zero (ModsState.processReportAction_within _ ?_) h
      intro mods haction hone
      exact htap ⟨mods, haction, hone⟩
  | override suppressed weakOverride => exact h
  | report now => exact ModsState.send_within.and_eq_zero h

theorem oneshot_apart_run (h : m &&& s.oneshotMods = 0) (hadds : ∀ e ∈ events, ¬ e.Adds set m) :
    m &&& (s.run set events).oneshotMods = 0 := by
  induction events generalizing s with
  | nil => exact h
  | cons e events ih =>
    exact ih (oneshot_apart_step h (hadds e List.mem_cons_self)) fun d hd => hadds d (List.mem_cons_of_mem e hd)

theorem press_uses_up {a : ReportAction} {mods : Mods} {code : UInt8} {now : UInt16} {tapCount : Nat}
    (h : a.keyPress = some (mods, code)) :
    (s.processReportAction set now a true tapCount).oneshotMods = 0 := by
  have hregister (t : ModsState) (hbasic : IsBasicKeycode code.toNat) :
      (t.registerCode set now code).oneshotMods = 0 := by
    unfold ModsState.registerCode
    rw [if_pos hbasic, ModsState.sendKeyboardReport_oneshotMods, if_neg]
    exact hasAnykey_addKey hbasic
  cases a with
  | key mods' code' =>
    simp only [ReportAction.keyPress, Option.ite_none_right_eq_some, Option.some.injEq, Prod.mk.injEq] at h
    obtain ⟨hbasic, rfl, rfl⟩ := h
    exact hregister _ hbasic
  | tapped code' =>
    simp only [ReportAction.keyPress, Option.ite_none_right_eq_some, Option.some.injEq, Prod.mk.injEq] at h
    obtain ⟨hbasic, -, rfl⟩ := h
    exact hregister _ hbasic
  | held _ => cases h
  | toggled _ => cases h
  | oneshot _ => cases h
  | nothing => cases h

theorem carried_of_tap {tap : Nat} {mods : Mods} (now : UInt16)
    (htap : ReportAction.ofAction set tap 1 = .oneshot mods) (hm : Within m mods) :
    Carried m (s.step set (.record tap true 1 now)) := by
  left
  simp only [ModsState.step, ModsState.processAction, htap]
  have hadd : (s.addOneshotMods now mods).oneshotMods = s.oneshotMods ||| mods := ModsState.addOneshotMods_eq
  exact hadd.symm ▸ hm.or_of_right _

end Run

def ModsState.start : ModsState where
  realMods := 0
  weakMods := 0
  weakOverrideMods := 0
  suppressedMods := 0
  oneshotMods := 0
  oneshotLockedMods := 0
  oneshotTime := 0
  reports := .zero
  lastReport := ⟨0, List.replicate keyboardReportKeys 0⟩
  out := []

/-- With the last report of the interface that the board uses. -/
def ModsState.startOf (set : ModsSettings) : ModsState := { start with lastReport := ⟨0, reportBytes set.nkro .zero⟩ }

section Next

variable {set : ModsSettings} {m : Mods}

end Next

def plainSettings : ModsSettings where
  tapToggle := 0
  timeout := 0
  oneshotEnable := true
  tappingToggle := 5
  swapHands := false
  nkro := false

def shiftTapped : ModsState :=
  ((ModsState.startOf plainSettings).run plainSettings [.record 4 true 0 0, .record 4 false 0 0]).step plainSettings
    (.record 0x2200 true 1 0)

end Keys
end VialQmk
