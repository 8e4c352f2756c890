import VialQmk.Keys.OneshotMods

/-!
# Keys.OneshotModsSteps

What one event does to a modifier that has been tapped.

* `Fresh.keeps`: a one-shot modifier stays while no key is pressed.
* `within_realMods`: a real one stays, or comes, by the effect of the event.
* `press_takes`: the report of a key has the modifiers that are carried up to it.
-/

namespace VialQmk
namespace Keys

open Lib

namespace ModsState

variable {set : ModsSettings} {now : UInt16} {s : ModsState} {mods m : Mods} {code : UInt8} {pressed : Bool}
  {tapCount : Nat}

theorem Fresh.send_eq (h : s.Fresh set now) (hkeys : hasAnykey set.nkro s.reports = 0) :
    (s.sendKeyboardReport set now).oneshotMods = s.oneshotMods := by
  rw [sendKeyboardReport_oneshotMods, if_pos hkeys, h]

theorem Fresh.registerMods_eq (mods : Mods) (h : s.Fresh set now) (hkeys : mods ≠ 0 → hasAnykey set.nkro s.reports = 0) :
    (s.registerMods set now mods).oneshotMods = s.oneshotMods := by
  unfold registerMods
  split
  · next hmods => exact Fresh.send_eq (s := s.addMods mods) (h.of_eq rfl rfl) (hkeys hmods)
  · rfl

theorem Fresh.unregisterMods_eq (mods : Mods) (h : s.Fresh set now) (hkeys : mods ≠ 0 → hasAnykey set.nkro s.reports = 0) :
    (s.unregisterMods set now mods).oneshotMods = s.oneshotMods := by
  unfold unregisterMods
  split
  · next hmods => exact Fresh.send_eq (s := s.delMods mods) (h.of_eq rfl rfl) (hkeys hmods)
  · rfl

theorem codeBuilds_iff : codeBuilds code = true ↔ IsBasicKeycode code.toNat ∨ IsModifierKeycode code.toNat := by
  simp [codeBuilds]

theorem Fresh.registerCode_eq (h : s.Fresh set now) (hbasic : ¬ IsBasicKeycode code.toNat)
    (hkeys : codeBuilds code = true → hasAnykey set.nkro s.reports = 0) :
    (s.registerCode set now code).oneshotMods = s.oneshotMods := by
  unfold registerCode
  rw [if_neg hbasic]
  split
  · next hmod =>
    exact Fresh.send_eq (s := s.addMods (modBit code.toNat)) (h.of_eq rfl rfl) (hkeys (codeBuilds_iff.mpr (.inr hmod)))
  · rfl

theorem reports_delKey (h : IsBasicKeycode code.toNat) : (s.delKey set code).reports = s.keysWithout set code := by
  simp [delKey, keysWithout, h]

theorem Fresh.unregisterCode (code : UInt8) (h : s.Fresh set now)
    (hkeys : codeBuilds code = true → hasAnykey set.nkro (s.keysWithout set code) = 0) :
    (s.unregisterCode set now code).oneshotMods = s.oneshotMods ∧
      (s.unregisterCode set now code).reports = s.keysWithout set code ∧
      (s.unregisterCode set now code).Fresh set now := by
  unfold ModsState.unregisterCode
  split
  · next hbasic =>
    have hdel : (s.delKey set code).Fresh set now := h.of_eq rfl rfl
    have hnone : hasAnykey set.nkro (s.delKey set code).reports = 0 := by
      rw [reports_delKey hbasic]
      exact hkeys (codeBuilds_iff.mpr (.inl hbasic))
    exact ⟨hdel.send_eq hnone, by rw [sendKeyboardReport_reports, reports_delKey hbasic], hdel.send⟩
  · next hbasic =>
    have hsame : s.keysWithout set code = s.reports := if_neg hbasic
    split
    · next hmod =>
      have hdel : (s.delMods (modBit code.toNat)).Fresh set now := h.of_eq rfl rfl
      rw [hsame] at hkeys ⊢
      exact ⟨hdel.send_eq (hkeys (codeBuilds_iff.mpr (.inr hmod))), sendKeyboardReport_reports, hdel.send⟩
    · exact ⟨rfl, hsame.symm, h⟩

theorem Fresh.processKey_eq (mods : Mods) (h : s.Fresh set now) (hbasic : pressed = true → ¬ IsBasicKeycode code.toNat)
    (hkeys : (s.keyEffect set mods code pressed).builds = true →
      hasAnykey set.nkro (s.keyEffect set mods code pressed).keys = 0) :
    (s.processKey set now mods code pressed).oneshotMods = s.oneshotMods := by
  cases pressed with
  | true =>
    simp only [keyEffect, if_true, decide_eq_true_eq] at hkeys
    simp only [processKey, if_true]
    split
    · next hmods =>
      have hnone := hkeys (.inl hmods)
      split
      · have hadd : (s.addMods mods).Fresh set now := h.of_eq rfl rfl
        rw [hadd.send.registerCode_eq (hbasic rfl) fun _ => by rwa [sendKeyboardReport_reports]]
        exact hadd.send_eq hnone
      · have hadd : (s.addWeakMods mods).Fresh set now := h.of_eq rfl rfl
        rw [hadd.send.registerCode_eq (hbasic rfl) fun _ => by rwa [sendKeyboardReport_reports]]
        exact hadd.send_eq hnone
    · exact h.registerCode_eq (hbasic rfl) fun hbuilds => hkeys (.inr hbuilds)
  | false =>
    simp only [keyEffect, Bool.false_eq_true, if_false, decide_eq_true_eq] at hkeys
    obtain ⟨hmodsEq, hreports, hfresh⟩ := h.unregisterCode code fun hbuilds => hkeys (.inr hbuilds)
    simp only [processKey, Bool.false_eq_true, if_false]
    split
    · next hmods =>
      have hnone : hasAnykey set.nkro (s.unregisterCode set now code).reports = 0 := by
        rw [hreports]
        exact hkeys (.inl hmods)
      split
      · have hdel : ((s.unregisterCode set now code).delMods mods).Fresh set now := hfresh.of_eq rfl rfl
        exact (hdel.send_eq hnone).trans hmodsEq
      · have hdel : ((s.unregisterCode set now code).delWeakMods mods).Fresh set now := hfresh.of_eq rfl rfl
        exact (hdel.send_eq hnone).trans hmodsEq
    · exact hmodsEq

theorem delOneshotMods_eq : (s.delOneshotMods now mods).oneshotMods = s.oneshotMods &&& ~~~mods := by
  unfold delOneshotMods
  split
  · rfl
  · next h =>
    have hzero : s.oneshotMods &&& mods = 0 := not_not.mp h
    refine BitVec.eq_of_getLsbD_eq fun i hi => ?_
    have hbit := and_eq_zero_iff_getLsbD.mp hzero i
    rw [BitVec.getLsbD_and, BitVec.getLsbD_not]
    cases hs : s.oneshotMods.getLsbD i with
    | false => rfl
    | true =>
      rw [hbit hs]
      simp [hi]

theorem addOneshotMods_eq : (s.addOneshotMods now mods).oneshotMods = s.oneshotMods ||| mods := by
  unfold addOneshotMods
  split
  · rfl
  · next h =>
    have hsub : s.oneshotMods &&& mods = mods := not_not.mp h
    rw [← hsub]
    refine BitVec.eq_of_getLsbD_eq fun i _ => ?_
    rw [BitVec.getLsbD_or, BitVec.getLsbD_and]
    cases s.oneshotMods.getLsbD i <;> simp

theorem Locks.ne (h : Locks set tapCount) : tapCount ≠ 0 ∧ tapCount ≠ 1 := by
  unfold Locks at h
  omega

theorem Fresh.releaseOneshot_eq (mods : Mods) (h : s.Fresh set now) (hkeys : mods ≠ 0 → hasAnykey set.nkro s.reports = 0) :
    (s.releaseOneshot set now mods).oneshotMods = s.oneshotMods &&& ~~~mods := by
  have hdel : ((s.unregisterMods set now mods).delOneshotMods now mods).oneshotMods =
      (s.unregisterMods set now mods).oneshotMods &&& ~~~mods := delOneshotMods_eq
  rw [h.unregisterMods_eq mods hkeys] at hdel
  exact hdel

theorem Fresh.oneshot_keeps (h : s.Fresh set now) (hm : Within m s.oneshotMods)
    (hkeys : (s.effect set (.oneshot mods) pressed tapCount).builds = true →
      hasAnykey set.nkro (s.effect set (.oneshot mods) pressed tapCount).keys = 0)
    (hdrops : m &&& (s.effect set (.oneshot mods) pressed tapCount).drops = 0) :
    Within m (s.processOneshot set now mods pressed tapCount).oneshotMods := by
  by_cases hzero : tapCount = 0
  · subst hzero
    cases pressed with
    | true => exact (h.registerMods_eq mods (by simpa [effect, modsEffect] using hkeys)).symm ▸ hm
    | false =>
      have heq := h.releaseOneshot_eq mods (by simpa [effect, modsEffect] using hkeys)
      exact heq.symm ▸ hm.and_not (by simpa [effect] using hdrops)
  · cases pressed with
    | true =>
      by_cases hlock : Locks set tapCount
      · have heq := h.registerMods_eq mods (by simpa [effect, modsEffect, hzero, hlock] using hkeys)
        have hdel : ((s.registerMods set now mods).delOneshotMods now mods).oneshotMods =
            (s.registerMods set now mods).oneshotMods &&& ~~~mods := delOneshotMods_eq
        rw [heq] at hdel
        simp only [processOneshot, if_true, hlock.ne.1, hlock.ne.2, if_false, hlock]
        exact hdel.symm ▸ hm.and_not (by simpa [effect, hzero, hlock] using hdrops)
      · by_cases hone : tapCount = 1
        · subst hone
          exact addOneshotMods_eq.symm ▸ hm.or_of_left mods
        · simpa [processOneshot, hzero, hone, hlock] using hm
    | false =>
      by_cases hunlock : s.Unlocks set mods tapCount
      · have heq := h.releaseOneshot_eq mods (by simpa [effect, modsEffect, hzero, hunlock] using hkeys)
        simp only [processOneshot, Bool.false_eq_true, if_false, hzero, hunlock, if_true]
        exact heq.symm ▸ hm.and_not (by simpa [effect, hzero, hunlock] using hdrops)
      · simpa [processOneshot, hzero, hunlock] using hm

theorem Fresh.keeps (a : ReportAction) (h : s.Fresh set now) (hquiet : ¬ (pressed = true ∧ a.keyPress.isSome))
    (hm : Within m s.oneshotMods)
    (hkeys : (s.effect set a pressed tapCount).builds = true →
      hasAnykey set.nkro (s.effect set a pressed tapCount).keys = 0)
    (hdrops : m &&& (s.effect set a pressed tapCount).drops = 0) :
    Within m (s.processReportAction set now a pressed tapCount).oneshotMods := by
  cases a with
  | key mods code =>
    have hbasic : pressed = true → ¬ IsBasicKeycode code.toNat := fun hp hb => hquiet ⟨hp, by simp [ReportAction.keyPress, hb]⟩
    have heq := h.processKey_eq mods hbasic hkeys
    simpa only [processReportAction, heq] using hm
  | tapped code =>
    have hbasic : pressed = true → ¬ IsBasicKeycode code.toNat := fun hp hb => hquiet ⟨hp, by simp [ReportAction.keyPress, hb]⟩
    have heq := h.processKey_eq 0 hbasic hkeys
    cases pressed with
    | true => exact heq.symm ▸ hm
    | false => exact heq.symm ▸ hm
  | held mods =>
    cases pressed with
    | true => exact (h.registerMods_eq mods (by simpa [effect, modsEffect] using hkeys)).symm ▸ hm
    | false => exact (h.unregisterMods_eq mods (by simpa [effect, modsEffect] using hkeys)).symm ▸ hm
  | toggled mods =>
    cases pressed with
    | true =>
      by_cases htap : tapCount ≤ set.tappingToggle
      · have heq := h.registerMods_eq mods (by simpa [effect, modsEffect, htap] using hkeys)
        simpa only [processReportAction, if_true, if_pos htap, heq] using hm
      · simpa [processReportAction, htap] using hm
    | false =>
      by_cases htap : tapCount < set.tappingToggle
      · have heq := h.unregisterMods_eq mods (by simpa [effect, modsEffect, htap] using hkeys)
        simpa [processReportAction, htap, heq] using hm
      · simpa [processReportAction, htap] using hm
  | oneshot mods => exact h.oneshot_keeps hm hkeys hdrops
  | nothing => exact hm

theorem registerMods_realMods : (s.registerMods set now mods).realMods = s.realMods ||| mods := by
  unfold registerMods
  split
  · simp [addMods]
  · next h => simp [not_not.mp h]

theorem unregisterMods_realMods : (s.unregisterMods set now mods).realMods = s.realMods &&& ~~~mods := by
  unfold unregisterMods
  split
  · simp [delMods]
  · next h =>
    rw [not_not.mp h]
    exact (BitVec.and_allOnes (x := s.realMods)).symm

theorem codeMods_of_basic (h : IsBasicKeycode code.toNat) : codeMods code = 0 := by
  have hmod : ¬ IsModifierKeycode code.toNat := by
    unfold IsBasicKeycode at h
    unfold IsModifierKeycode
    omega
  simp [codeMods, hmod]

theorem and_not_zero (x : Mods) : x &&& 255#8 = x := BitVec.and_allOnes (x := x)

theorem registerCode_realMods : (s.registerCode set now code).realMods = s.realMods ||| codeMods code := by
  unfold ModsState.registerCode
  split
  · next hbasic =>
    rw [codeMods_of_basic hbasic]
    split
    · simp [addKey, delKey]
    · simp [addKey]
  · split
    · next hmod => simp [codeMods, hmod, addMods]
    · next hmod => simp [codeMods, hmod]

theorem unregisterCode_realMods : (s.unregisterCode set now code).realMods = s.realMods &&& ~~~codeMods code := by
  unfold ModsState.unregisterCode
  split
  · next hbasic =>
    rw [codeMods_of_basic hbasic]
    simp [delKey, and_not_zero]
  · split
    · next hmod => simp [codeMods, hmod, delMods]
    · next hmod => simp [codeMods, hmod, and_not_zero]

theorem processKey_realMods_press :
    (s.processKey set now mods code true).realMods = s.realMods ||| strongMods mods code ||| codeMods code := by
  simp only [processKey, if_true, registerCode_realMods]
  by_cases hmods : mods = 0#8
  · simp [hmods, strongMods]
  · by_cases hstrong : IsStrong code
    · simp [hmods, hstrong, strongMods, addMods]
    · simp [hmods, hstrong, strongMods, addWeakMods]

theorem processKey_realMods_release :
    (s.processKey set now mods code false).realMods =
      s.realMods &&& ~~~codeMods code &&& ~~~strongMods mods code := by
  simp only [processKey, Bool.false_eq_true, if_false]
  by_cases hmods : mods = 0#8
  · simp [hmods, strongMods, unregisterCode_realMods, and_not_zero]
  · by_cases hstrong : IsStrong code
    · simp [hmods, hstrong, strongMods, delMods, unregisterCode_realMods]
    · simp [hmods, hstrong, strongMods, delWeakMods, unregisterCode_realMods, and_not_zero]

theorem releaseOneshot_realMods : (s.releaseOneshot set now mods).realMods = s.realMods &&& ~~~mods := by
  have hdel : ((s.unregisterMods set now mods).delOneshotMods now mods).realMods =
      (s.unregisterMods set now mods).realMods := by
    unfold delOneshotMods
    split <;> rfl
  exact hdel.trans unregisterMods_realMods

theorem oneshot_within_realMods (hm : Within m (s.realMods ||| (s.effect set (.oneshot mods) pressed tapCount).gains))
    (hloses : m &&& (s.effect set (.oneshot mods) pressed tapCount).loses = 0) :
    Within m (s.processOneshot set now mods pressed tapCount).realMods := by
  have hadd : (s.addOneshotMods now mods).realMods = s.realMods := by
    unfold addOneshotMods
    split <;> rfl
  by_cases hzero : tapCount = 0
  · subst hzero
    cases pressed with
    | true => exact registerMods_realMods.symm ▸ (by simpa [effect, modsEffect] using hm)
    | false =>
      have hreal : Within m s.realMods := by simpa [effect, modsEffect] using hm
      exact releaseOneshot_realMods.symm ▸ hreal.and_not (by simpa [effect, modsEffect] using hloses)
  · cases pressed with
    | true =>
      by_cases hlock : Locks set tapCount
      · have hdel : ((s.registerMods set now mods).delOneshotMods now mods).realMods =
            (s.registerMods set now mods).realMods := by
          unfold delOneshotMods
          split <;> rfl
        simp only [processOneshot, if_true, hlock.ne.1, hlock.ne.2, if_false, hlock]
        refine (hdel.trans registerMods_realMods).symm ▸ ?_
        simpa [effect, modsEffect, hzero, hlock] using hm
      · have hreal : Within m s.realMods := by simpa [effect, idle, hzero, hlock] using hm
        by_cases hone : tapCount = 1
        · subst hone
          exact hadd.symm ▸ hreal
        · simpa [processOneshot, hzero, hone, hlock] using hreal
    | false =>
      by_cases hunlock : s.Unlocks set mods tapCount
      · have hreal : Within m s.realMods := by simpa [effect, modsEffect, hzero, hunlock] using hm
        simp only [processOneshot, Bool.false_eq_true, if_false, hzero, hunlock, if_true]
        exact releaseOneshot_realMods.symm ▸ hreal.and_not (by simpa [effect, modsEffect, hzero, hunlock] using hloses)
      · have hreal : Within m s.realMods := by simpa [effect, idle, hzero, hunlock] using hm
        simpa [processOneshot, hzero, hunlock] using hreal

theorem processKey_within_realMods (hm : Within m (s.realMods ||| (s.keyEffect set mods code pressed).gains))
    (hloses : m &&& (s.keyEffect set mods code pressed).loses = 0) :
    Within m (s.processKey set now mods code pressed).realMods := by
  cases pressed with
  | true =>
    rw [processKey_realMods_press, BitVec.or_assoc]
    exact hm
  | false =>
    have hreal : Within m s.realMods := by simpa [keyEffect] using hm
    rw [processKey_realMods_release]
    have hcode := (Within.or_left _ _).and_eq_zero hloses
    have hstrong := (Within.or_right _ _).and_eq_zero hloses
    exact (hreal.and_not hcode).and_not hstrong

theorem mods_within_realMods (pressed : Bool) (hm : Within m (s.realMods ||| (s.modsEffect mods pressed).gains))
    (hloses : m &&& (s.modsEffect mods pressed).loses = 0) :
    Within m (if pressed then s.registerMods set now mods else s.unregisterMods set now mods).realMods := by
  cases pressed with
  | true => exact registerMods_realMods.symm ▸ hm
  | false =>
    have hreal : Within m s.realMods := by simpa [modsEffect] using hm
    exact unregisterMods_realMods.symm ▸ hreal.and_not hloses

theorem within_realMods (a : ReportAction) (hm : Within m (s.realMods ||| (s.effect set a pressed tapCount).gains))
    (hloses : m &&& (s.effect set a pressed tapCount).loses = 0) :
    Within m (s.processReportAction set now a pressed tapCount).realMods := by
  cases a with
  | key mods code => exact processKey_within_realMods hm hloses
  | tapped code =>
    have hkey : Within m (s.processKey set now 0 code pressed).realMods := processKey_within_realMods hm hloses
    cases pressed with
    | true => exact hkey
    | false => exact hkey
  | held mods => exact mods_within_realMods pressed hm hloses
  | toggled mods =>
    simp only [effect] at hm hloses
    simp only [processReportAction]
    cases pressed with
    | true =>
      by_cases htap : tapCount ≤ set.tappingToggle
      · simp only [if_true, if_pos htap] at hm hloses ⊢
        exact mods_within_realMods true hm hloses
      · simpa [htap, idle] using hm
    | false =>
      by_cases htap : tapCount < set.tappingToggle
      · simp only [Bool.false_eq_true, if_false, if_pos htap] at hm hloses ⊢
        exact mods_within_realMods false hm hloses
      · simpa [htap, idle] using hm
  | oneshot mods => exact oneshot_within_realMods hm hloses
  | nothing => simpa [effect, idle, processReportAction] using hm

theorem within_overrideMods {x : Mods} (hx : Within m x) (hshown : Within (m &&& s.suppressedMods) s.weakOverrideMods) :
    Within m (s.overrideMods x) := by
  intro i hi
  rw [overrideMods, BitVec.getLsbD_or, Bool.or_eq_true, BitVec.getLsbD_and, BitVec.getLsbD_not]
  have hlt := BitVec.lt_of_getLsbD hi
  cases hs : s.suppressedMods.getLsbD i with
  | true => exact .inr (hshown i (by simp [hi, hs]))
  | false => exact .inl (by simp [hx i hi, hlt])

theorem registerCode_takes (hbasic : IsBasicKeycode code.toNat) (hfresh : s.Fresh set now)
    (hshown : Within (m &&& s.suppressedMods) s.weakOverrideMods)
    (hm : Within m (s.realMods ||| s.weakMods) ∨ Within m s.oneshotMods ∧
      (isKeyPressed set.nkro s.reports code = true → hasAnykey set.nkro (delKeyFromReport set.nkro s.reports code) = 0)) :
    Within m (s.registerCode set now code).lastReport.mods := by
  unfold ModsState.registerCode
  rw [if_pos hbasic]
  have hbuilt : ∀ u : ModsState, u.suppressedMods = s.suppressedMods → u.weakOverrideMods = s.weakOverrideMods →
      u.Fresh set now → Within m (u.realMods ||| u.weakMods ||| u.oneshotMods) →
      Within m ((u.addKey set code).sendKeyboardReport set now).lastReport.mods := by
    intro u hsuppressed hoverride hu hmods
    rw [sendKeyboardReport_lastReport]
    refine within_overrideMods ?_ ?_
    · have hlive : (u.addKey set code).liveMods set now = u.oneshotMods := hu
      rw [hlive]
      exact hmods
    · change Within (m &&& u.suppressedMods) u.weakOverrideMods
      rwa [hsuppressed, hoverride]
  by_cases hpressed : isKeyPressed set.nkro s.reports code = true
  · simp only [hpressed, if_true]
    have hdel : (s.delKey set code).Fresh set now := hfresh.of_eq rfl rfl
    refine hbuilt _ (by simp [delKey]) (by simp [delKey]) hdel.send ?_
    rcases hm with hplain | ⟨honeshot, hkeys⟩
    · refine Within.or_of_left ?_ _
      simpa [delKey] using hplain
    · refine Within.or_of_right ?_ _
      rw [hdel.send_eq (hkeys hpressed)]
      exact honeshot
  · simp only [hpressed, Bool.false_eq_true, if_false]
    refine hbuilt s rfl rfl hfresh ?_
    rcases hm with hplain | ⟨honeshot, -⟩
    · exact hplain.or_of_left _
    · exact honeshot.or_of_right _

theorem processKey_zero_press : s.processKey set now 0 code true = s.registerCode set now code := by
  simp [processKey]

theorem processKey_takes (hbasic : IsBasicKeycode code.toNat) (hfresh : s.Fresh set now) (hcarried : Carried m s)
    (h : Takes set m s mods code) : Within m (s.processKey set now mods code true).lastReport.mods := by
  obtain ⟨hshown, hfinds⟩ := h
  have hm : Within m (s.realMods ||| (s.weakMods ||| mods)) ∨
      Within m s.oneshotMods ∧ (mods ≠ 0 → hasAnykey set.nkro s.reports = 0) ∧
        (isKeyPressed set.nkro s.reports code = true →
          hasAnykey set.nkro (delKeyFromReport set.nkro s.reports code) = 0) := by
    rcases hfinds with hplain | hkeys
    · exact .inl hplain
    · rcases hcarried with honeshot | hreal
      · exact .inr ⟨honeshot, hkeys⟩
      · exact .inl (hreal.or_of_left _)
  have hweak : ¬ IsStrong code := by
    rintro (hmod | hzero)
    · unfold IsBasicKeycode at hbasic
      unfold IsModifierKeycode at hmod
      omega
    · subst hzero
      exact absurd hbasic.1 (by decide)
  by_cases hmods : mods = 0
  · subst hmods
    rw [processKey_zero_press]
    refine registerCode_takes hbasic hfresh hshown ?_
    rcases hm with hplain | ⟨honeshot, -, hkeys⟩
    · exact .inl (by simpa using hplain)
    · exact .inr ⟨honeshot, hkeys⟩
  · have hcode : s.processKey set now mods code true =
        ((s.addWeakMods mods).sendKeyboardReport set now).registerCode set now code := by
      simp only [processKey, if_true, if_pos hmods, if_neg hweak]
    rw [hcode]
    have hadd : (s.addWeakMods mods).Fresh set now := hfresh.of_eq rfl rfl
    refine registerCode_takes hbasic hadd.send ?_ ?_
    · simpa [addWeakMods] using hshown
    · rcases hm with hplain | ⟨honeshot, hfirst, hkeys⟩
      · exact .inl (by simpa [addWeakMods] using hplain)
      · refine .inr ⟨?_, by simpa [addWeakMods] using hkeys⟩
        rw [hadd.send_eq (hfirst hmods)]
        exact honeshot

theorem press_takes {a : ReportAction} (hkey : a.keyPress = some (mods, code)) (hfresh : s.Fresh set now)
    (hcarried : Carried m s) (h : Takes set m s mods code) : Within m (s.processReportAction set now a true tapCount).lastReport.mods := by
  cases a with
  | key mods' code' =>
    simp only [ReportAction.keyPress, Option.ite_none_right_eq_some, Option.some.injEq, Prod.mk.injEq] at hkey
    obtain ⟨hbasic, rfl, rfl⟩ := hkey
    exact processKey_takes hbasic hfresh hcarried h
  | tapped code' =>
    simp only [ReportAction.keyPress, Option.ite_none_right_eq_some, Option.some.injEq, Prod.mk.injEq] at hkey
    obtain ⟨hbasic, rfl, rfl⟩ := hkey
    have htakes := processKey_takes hbasic hfresh hcarried h
    rwa [processKey_zero_press] at htakes
  | held _ => cases hkey
  | toggled _ => cases hkey
  | oneshot _ => cases hkey
  | nothing => cases hkey

end ModsState

theorem hasAnykey_addKey {nkro : Bool} {r : Reports} {code : UInt8} (h : IsBasicKeycode code.toNat) :
    hasAnykey nkro (addKeyToReport nkro r code) ≠ 0 := by
  have hne : code ≠ 0 := by
    rintro rfl
    exact absurd h.1 (by decide)
  cases nkro with
  | true =>
    intro hzero
    have hlt : code.toNat < 8 * nkroReportBits := by
      have := h.2
      simp only [nkroReportBits]
      omega
    exact (countP_bits_eq_zero.mp hzero) code ((addKeyBit_hasBit hlt).mpr (.inl rfl))
  | false =>
    simp only [hasAnykey, addKeyToReport, Bool.false_eq_true, if_false]
    rw [Ne, List.countP_eq_zero]
    intro hall
    have hslots : ∀ key ∈ (addKeyByte r.keyboard code).keys, key = 0 := fun key hkey => by simpa using hall key hkey
    by_cases hmem : code ∈ r.keyboard.keys
    · rw [addKeyByte_of_mem hmem] at hslots
      exact hne (hslots code hmem)
    · by_cases hhole : 0 ∈ r.keyboard.keys
      · obtain ⟨l, rest, -, hkeys⟩ := addKeyByte_of_hole hmem hhole
        exact hne (hslots code (by simp [hkeys]))
      · have hsize := (addKeyByte r.keyboard code).size
        obtain ⟨first, rest, hkeys⟩ := List.exists_cons_of_length_pos (by rw [hsize]; decide)
        have hfirst : first = 0 := hslots first (by simp [hkeys])
        have hzero : 0 ∈ (addKeyByte r.keyboard code).keys := by simp [hkeys, hfirst]
        unfold addKeyByte at hzero
        dsimp only at hzero
        split at hzero
        · rcases List.mem_or_eq_of_mem_set hzero with hold | hcode
          · exact hhole hold
          · exact hne hcode.symm
        · exact hhole hzero

end Keys
end VialQmk
