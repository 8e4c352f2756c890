import VialQmk.Keys.CapsWordHeld

/-!
# Keys.CapsWordRuns

What is left on behind a word.

* `Account`: the modifiers that somebody answers for, and `ModsState.Covered`: no others are on, or in the last report.
* `CapsWord.Inv`: the keys that are held and Caps Word answer for the modifiers.
* `caps_word_strands_no_shift`: where no key is held, nobody is left to answer for a shift.
* `starts_apart_strand_nothing`: no shift is left behind by words that start and end with no shift down.
-/

namespace VialQmk
namespace Keys

open Lib

/-! ## Accounts -/

/-- The real and the weak modifiers that somebody answers for, and those that a report may have got from them. -/
structure Account where
  real : Mods
  weak : Mods
  report : Mods
  real_within : Within real report
  weak_within : Within weak report

/-- The one-shot modifiers that may be in the last report, by what has been sent, and those that may be locked. -/
structure Oneshots where
  pending : List SentReport → Mods
  locks : Mods

structure Oneshots.Has (one : Oneshots) (mods : Mods) : Prop where
  pending : ∀ out, Within mods (one.pending out)
  locks : Within mods one.locks

theorem Oneshots.Has.mono {one : Oneshots} {x y : Mods} (h : one.Has y) (hxy : Within x y) : one.Has x :=
  ⟨fun out => hxy.trans (h.pending out), hxy.trans h.locks⟩

namespace ModsState

variable {set : ModsSettings} {now : UInt16} {c d : Account} {one : Oneshots} {m t : ModsState} {a : ReportAction}
  {tapCount : Nat}

structure Covered (c : Account) (one : Oneshots) (m : ModsState) : Prop where
  real : Within m.realMods (c.real ||| m.oneshotLockedMods)
  weak : Within m.weakMods c.weak
  override_eq : m.weakOverrideMods = 0
  locks : Within m.oneshotLockedMods one.locks
  oneshot : ∀ out, Within m.oneshotMods (one.pending out)
  report : Within m.lastReport.mods (c.report ||| m.oneshotLockedMods ||| one.pending m.out)

theorem Covered.mono (h : Covered c one m) (hreal : Within c.real d.real) (hweak : Within c.weak d.weak)
    (hreport : Within c.report d.report) : Covered d one m where
  real := h.real.trans (hreal.or_mono (.refl _))
  weak := h.weak.trans hweak
  override_eq := h.override_eq
  locks := h.locks
  oneshot := h.oneshot
  report := h.report.trans ((hreport.or_mono (.refl _)).or_mono (.refl _))

theorem plainMods_within (hreal : Within m.realMods (c.real ||| m.oneshotLockedMods)) (hweak : Within m.weakMods c.weak)
    (hoverride : m.weakOverrideMods = 0) : Within m.plainMods (c.report ||| m.oneshotLockedMods) := by
  rw [ModsState.plainMods, hoverride]
  refine .or (.or ?_ ?_) (.zero_left _)
  · exact hreal.trans (c.real_within.or_mono (.refl _))
  · exact (hweak.trans c.weak_within).or_of_left _

theorem Covered.press (h : Covered c one m) (hpress : Pressed a tapCount m t)
    (hreal : Within (a.realMods tapCount) c.real) (hweak : Within a.weakMods c.weak)
    (hone : one.Has a.oneshotMods) : Covered c one t := by
  have hrealNow : Within t.realMods (c.real ||| t.oneshotLockedMods) :=
    hpress.real.trans (.or (h.real.trans ((Within.refl _).or_mono hpress.locked)) (hreal.or_mono (.refl _)))
  have hweakNow : Within t.weakMods c.weak := hpress.weak.trans (.or h.weak hweak)
  have hoverride : t.weakOverrideMods = 0 := hpress.override_eq.trans h.override_eq
  refine ⟨hrealNow, hweakNow, hoverride, hpress.locks.trans (.or h.locks hone.locks),
    fun out => hpress.oneshot.trans (.or (h.oneshot out) (hone.pending out)), ?_⟩
  rcases hpress.report with hsame | hreport
  · rw [hsame.1, hsame.2]
    exact h.report.trans (((Within.refl _).or_mono hpress.locked).or_mono (.refl _))
  · exact hreport.trans ((plainMods_within hrealNow hweakNow hoverride).or_mono (h.oneshot _))

theorem Covered.release (h : Covered c one m) (hrelease : Released a tapCount m t)
    (hreal : Within (c.real &&& ~~~a.realMods tapCount) d.real) (hweak : Within (c.weak &&& ~~~a.weakMods) d.weak)
    (hreport : a.realMods tapCount = 0 → a.weakMods = 0 → ∀ out, Within c.report (d.report ||| one.pending out)) :
    Covered d one t := by
  have hrealNow : Within t.realMods (d.real ||| t.oneshotLockedMods) := by
    intro i hi
    have hleft := hrelease.real i hi
    rw [BitVec.getLsbD_and, Bool.and_eq_true] at hleft
    rw [BitVec.getLsbD_or, Bool.or_eq_true]
    rcases (by simpa using h.real i hleft.1 : c.real.getLsbD i = true ∨ m.oneshotLockedMods.getLsbD i = true) with
      hkey | hlock
    · refine .inl (hreal i ?_)
      rw [BitVec.getLsbD_and, hkey, hleft.2]
      rfl
    · refine .inr (hrelease.locked i ?_)
      rw [BitVec.getLsbD_and, hi, hlock]
      rfl
  have hweakNow : Within t.weakMods d.weak :=
    (hrelease.weak.trans (h.weak.and_mono (.refl _))).trans hweak
  have hoverride : t.weakOverrideMods = 0 := hrelease.override_eq.trans h.override_eq
  refine ⟨hrealNow, hweakNow, hoverride, hrelease.locks.trans h.locks,
    fun out => hrelease.oneshot.trans (h.oneshot out), ?_⟩
  rcases hrelease.report with ⟨hnoReal, hnoWeak, hlocked, hsame⟩ | hsent
  · rw [hsame.1, hsame.2, hlocked]
    refine h.report.trans (.or (.or ?_ ?_) (.or_right _ _))
    · exact (hreport hnoReal hnoWeak m.out).trans ((Within.or_left _ _).or_mono (.refl _))
    · exact (Within.or_right _ _).or_of_left _
  · exact hsent.trans ((plainMods_within hrealNow hweakNow hoverride).or_mono (h.oneshot _))

theorem Covered.send (hreal : Within m.realMods (c.real ||| m.oneshotLockedMods)) (hweak : Within m.weakMods c.weak)
    (hoverride : m.weakOverrideMods = 0) (hlocks : Within m.oneshotLockedMods one.locks)
    (hone : ∀ out, Within m.oneshotMods (one.pending out)) : Covered c one (m.sendKeyboardReport set now) := by
  have hedits : Edits m (m.sendKeyboardReport set now) m.realMods m.weakMods := .send m
  have hrealNow : Within (m.sendKeyboardReport set now).realMods
      (c.real ||| (m.sendKeyboardReport set now).oneshotLockedMods) := by
    rw [hedits.real_eq, hedits.locked_eq]
    exact hreal
  have hweakNow : Within (m.sendKeyboardReport set now).weakMods c.weak := hedits.weak_eq.symm ▸ hweak
  have hoverrideNow := hedits.override_eq.trans hoverride
  refine ⟨hrealNow, hweakNow, hoverrideNow, hedits.locked_eq.symm ▸ hlocks,
    fun out => hedits.oneshot.trans (hone out), ?_⟩
  exact (Reported.send m).trans ((plainMods_within hrealNow hweakNow hoverrideNow).or_mono (hone _))

theorem Covered.edit (h : Covered c one m) (hreal : Within t.realMods (d.real ||| m.oneshotLockedMods))
    (hweak : Within t.weakMods d.weak) (hreport : Within c.report d.report) (hone : Within t.oneshotMods m.oneshotMods)
    (hlocked : t.oneshotLockedMods = m.oneshotLockedMods) (hoverride : t.weakOverrideMods = m.weakOverrideMods)
    (hsame : Unreported m t) : Covered d one t where
  real := hlocked.symm ▸ hreal
  weak := hweak
  override_eq := hoverride.trans h.override_eq
  locks := hlocked.symm ▸ h.locks
  oneshot out := hone.trans (h.oneshot out)
  report := by
    rw [hsame.1, hsame.2, hlocked]
    exact h.report.trans ((hreport.or_mono (.refl _)).or_mono (.refl _))

theorem exec_eq (set : ModsSettings) (now : UInt16) (m : ModsState) (pressed : Bool) :
    ∃ weak oneshot time, Within weak m.weakMods ∧ Within oneshot m.oneshotMods ∧
      m.exec set now pressed = { m with weakMods := weak, oneshotMods := oneshot, oneshotTime := time } := by
  have htimeout (n : ModsState) : ∃ oneshot time, Within oneshot n.oneshotMods ∧
      (if set.oneshotEnable ∧ 0 < set.timeout ∧ n.hasOneshotModsTimedOut set now then n.clearOneshotMods else n) =
        { n with oneshotMods := oneshot, oneshotTime := time } := by
    split
    · exact ⟨_, _, .zero_left _, n.clearOneshotMods_eq⟩
    · exact ⟨n.oneshotMods, n.oneshotTime, .refl _, rfl⟩
  cases pressed with
  | true =>
    obtain ⟨oneshot, time, hone, heq⟩ := htimeout { m with weakMods := 0 }
    exact ⟨0, oneshot, time, .zero_left _, hone, heq⟩
  | false =>
    obtain ⟨oneshot, time, hone, heq⟩ := htimeout m
    exact ⟨m.weakMods, oneshot, time, .refl _, hone, heq⟩

end ModsState

/-! ## Keys and words -/

namespace HeldKey

variable (cfg : CapsWordConfig) (k : HeldKey)

def realMods : Mods := (k.action cfg).realMods k.tapCount

def weakMods : Mods := (k.action cfg).weakMods

def wordMods : Mods := if cfg.invertOnShift then k.shiftMod else 0

def reportMods : Mods := k.realMods cfg ||| k.weakMods cfg ||| (k.oneshotMods cfg ||| k.wordMods cfg)

end HeldKey

namespace CapsWord

def remembered (s : CapsWord) : Mods := if s.capsWordActive then 0 else s.heldMods

def capsShift (s : CapsWord) : Mods := if s.capsWordActive then modBit kcLsft else 0

def account (cfg : CapsWordConfig) (held : List HeldKey) (s : CapsWord) : Account where
  real := s.remembered ||| unionOf (HeldKey.realMods cfg) held
  weak := s.capsShift ||| unionOf (HeldKey.weakMods cfg) held
  report := s.remembered ||| s.capsShift ||| unionOf (HeldKey.reportMods cfg) held
  real_within := (Within.or_left _ _).or_mono (unionOf_mono fun _ => (Within.or_left _ _).or_of_left _)
  weak_within := (Within.or_right _ _).or_mono (unionOf_mono fun _ => (Within.or_right _ _).or_of_left _)

structure Inv (cfg : CapsWordConfig) (held : List HeldKey) (one : Oneshots) (s : CapsWord) : Prop where
  covered : s.mods.Covered (s.account cfg held) one
  word : Within s.heldMods (unionOf (HeldKey.wordMods cfg) held)

variable {cfg : CapsWordConfig} {held : List HeldKey} {one : Oneshots} {now : UInt16} {s : CapsWord}
  {m : ModsState} {k : HeldKey}

theorem wordMods_within (held : List HeldKey) :
    Within (unionOf (HeldKey.wordMods cfg) held) (unionOf (HeldKey.reportMods cfg) held) :=
  unionOf_mono fun _ => (Within.or_right _ _).or_of_right _

theorem remembered_within (s : CapsWord) : Within s.remembered s.heldMods := by
  unfold remembered
  split
  · exact .zero_left _
  · exact .refl _

theorem Inv.hold (h : s.Inv cfg held one) (k : HeldKey) : s.Inv cfg (k :: held) one where
  covered := by
    refine h.covered.mono ?_ ?_ ?_
    · exact (Within.refl _).or_mono unionOf_within_cons
    · exact (Within.refl _).or_mono unionOf_within_cons
    · exact (Within.refl _).or_mono unionOf_within_cons
  word := h.word.trans unionOf_within_cons

theorem Inv.widen (h : s.Inv cfg held one) {later : Oneshots} (hlocks : Within one.locks later.locks)
    (hone : ∀ out, Within s.mods.oneshotMods (later.pending out))
    (hreport : Within (one.pending s.mods.out) (later.pending s.mods.out)) : s.Inv cfg held later where
  covered :=
    { h.covered with
      locks := h.covered.locks.trans hlocks
      oneshot := hone
      report := h.covered.report.trans ((Within.refl _).or_mono hreport) }
  word := h.word

theorem oneshotMods_within : Within (k.action cfg).oneshotMods (k.oneshotMods cfg) := by
  unfold HeldKey.oneshotMods
  cases k.action cfg with
  | oneshot mods => exact .or_left _ _
  | _ => exact .zero_left _

theorem covered_press {n : ModsState} (h : n.Covered (s.account cfg (k :: held)) one)
    (hpress : n.Pressed (k.action cfg) k.tapCount m) (hone : one.Has (k.oneshotMods cfg)) :
    m.Covered (s.account cfg (k :: held)) one := by
  refine h.press hpress ?_ ?_ (hone.mono oneshotMods_within)
  · have hmem : Within (k.realMods cfg) (unionOf (HeldKey.realMods cfg) (k :: held)) := .or_left _ _
    exact hmem.or_of_right _
  · have hmem : Within (k.weakMods cfg) (unionOf (HeldKey.weakMods cfg) (k :: held)) := .or_left _ _
    exact hmem.or_of_right _

theorem Inv.press (h : s.Inv cfg (k :: held) one) (hpress : s.mods.Pressed (k.action cfg) k.tapCount m)
    (hone : one.Has (k.oneshotMods cfg)) :
    ({ s with mods := m } : CapsWord).Inv cfg (k :: held) one := by
  have hcovered : m.Covered (s.account cfg (k :: held)) one := covered_press h.covered hpress hone
  exact ⟨hcovered, h.word⟩

theorem erase_within {x : Mods} {f : HeldKey → Mods} (hx : Within x (unionOf f held)) (hoff : x &&& f k = 0) :
    Within x (unionOf f (held.erase k)) := by
  have herase : Within x (unionOf f (held.erase k) ||| f k) := by
    rw [BitVec.or_comm]
    exact hx.trans (unionOf_within_erase k)
  exact herase.of_or hoff

theorem covered_release {n : ModsState} (h : n.Covered (s.account cfg held) one)
    (hrelease : n.Released (k.action cfg) k.tapCount m) (hone : one.Has (k.oneshotMods cfg)) :
    m.Covered (s.account cfg (held.erase k)) one := by
  refine h.release hrelease (unionOf_erase_within _ k) (unionOf_erase_within _ k) fun hnoReal hnoWeak out => ?_
  have hkey : Within (k.reportMods cfg) (one.pending out) := by
    have hshift : Within (k.wordMods cfg) (one.pending out) := by
      unfold HeldKey.wordMods
      split
      · exact (HeldKey.shiftMod_within hnoReal).trans (hone.pending out)
      · exact .zero_left _
    unfold HeldKey.reportMods HeldKey.realMods HeldKey.weakMods
    rw [hnoReal, hnoWeak]
    exact .or (.or (.zero_left _) (.zero_left _)) (.or (hone.pending out) hshift)
  refine .or ((Within.or_left _ _).or_of_left _) ((unionOf_within_erase k).trans (.or ?_ ?_))
  · exact hkey.or_of_right _
  · exact (Within.or_right _ _).or_of_left _

theorem Inv.release (h : s.Inv cfg held one) (hrelease : s.mods.Released (k.action cfg) k.tapCount m)
    (hword : s.heldMods &&& k.wordMods cfg = 0) (hone : one.Has (k.oneshotMods cfg)) :
    ({ s with mods := m } : CapsWord).Inv cfg (held.erase k) one := by
  have hcovered : m.Covered (s.account cfg (held.erase k)) one := covered_release h.covered hrelease hone
  exact ⟨hcovered, erase_within h.word hword⟩

/-! ## The word comes and goes -/

theorem Inv.resetIdleTimer (h : s.Inv cfg held one) : (s.resetIdleTimer cfg now).Inv cfg held one := by
  unfold CapsWord.resetIdleTimer
  split
  · exact ⟨h.covered, h.word⟩
  · exact h

theorem capsWordOn_eq (cfg : CapsWordConfig) (now : UInt16) (hoff : s.capsWordActive = false) :
    ∃ timer, s.capsWordOn cfg now =
      { s with mods := s.mods.clearMods.clearOneshotMods, idleTimer := timer, capsWordActive := true } := by
  unfold capsWordOn CapsWord.resetIdleTimer
  rw [if_neg (by simp [hoff])]
  split
  · exact ⟨_, rfl⟩
  · exact ⟨s.idleTimer, rfl⟩

theorem Inv.capsWordOn (h : s.Inv cfg held one) : (s.capsWordOn cfg now).Inv cfg held one := by
  cases hactive : s.capsWordActive with
  | true =>
    rw [CapsWord.capsWordOn, if_pos hactive]
    exact h
  | false =>
    obtain ⟨timer, heq⟩ := capsWordOn_eq cfg now hactive
    have hshift : s.capsShift = 0 := by simp [capsShift, hactive]
    rw [heq, ModsState.clearOneshotMods_eq]
    refine ⟨h.covered.edit (.zero_left _) ?_ ?_ (.zero_left _) rfl rfl ⟨rfl, rfl⟩, h.word⟩
    · refine h.covered.weak.trans (.or_mono ?_ (.refl _))
      rw [hshift]
      exact .zero_left _
    · refine .or (.or ?_ ?_) (.or_right _ _)
      · exact (s.remembered_within.trans (h.word.trans (wordMods_within held))).or_of_right _
      · rw [hshift]
        exact .zero_left _

theorem Inv.capsWordOff (h : s.Inv cfg held one) : (s.capsWordOff cfg now).Inv cfg held one := by
  unfold CapsWord.capsWordOff
  by_cases hactive : s.capsWordActive = true
  · have hremembered : s.remembered = 0 := by simp [remembered, hactive]
    have hshift : s.capsShift = modBit kcLsft := by simp [capsShift, hactive]
    rw [if_pos hactive]
    refine ⟨?_, h.word⟩
    show (ModsState.unregisterWeakMods s.mods cfg.toModsSettings now modMaskShift).Covered _ one
    rw [ModsState.unregisterWeakMods, if_pos (by decide)]
    refine .send ?_ ?_ h.covered.override_eq h.covered.locks h.covered.oneshot
    · refine h.covered.real.trans (.or_mono (.or_mono ?_ (.refl _)) (.refl _))
      rw [hremembered]
      exact .zero_left _
    · refine (h.covered.weak.and_mono (.refl (~~~modMaskShift))).trans ?_
      have hmask : Within s.capsShift modMaskShift := by
        rw [hshift]
        decide
      exact (hmask.or_and_not _).or_of_right _
  · rw [if_neg hactive]
    exact h

theorem capsWordOff_inactive : (s.capsWordOff cfg now).capsWordActive = false := by
  unfold CapsWord.capsWordOff
  split
  · rfl
  · next hoff => exact Bool.eq_false_iff.mpr hoff

theorem Inv.capsWordToggle (h : s.Inv cfg held one) : (s.capsWordToggle cfg now).Inv cfg held one := by
  unfold CapsWord.capsWordToggle
  split
  · exact h.capsWordOff
  · exact h.capsWordOn

theorem Inv.capsWordTask (h : s.Inv cfg held one) : (s.capsWordTask cfg now).Inv cfg held one := by
  unfold CapsWord.capsWordTask
  split
  · exact h.capsWordOff
  · exact h

theorem remembered_of_inactive (hoff : s.capsWordActive = false) : s.remembered = s.heldMods := by
  simp [remembered, hoff]

theorem Inv.endWord (h : s.Inv cfg held one) : (s.endWord cfg now).Inv cfg held one := by
  have hend : (s.capsWordOff cfg now).Inv cfg held one := h.capsWordOff
  have hoff : (s.capsWordOff cfg now).capsWordActive = false := capsWordOff_inactive
  unfold CapsWord.endWord
  generalize s.capsWordOff cfg now = t at hend hoff
  split
  · have hshifts : Within t.heldMods ((t.account cfg held).real ||| t.mods.oneshotLockedMods) := by
      have hreal : Within t.remembered (t.account cfg held).real := .or_left _ _
      exact (remembered_of_inactive hoff ▸ hreal).or_of_left _
    have hreal : Within (t.mods.addMods t.heldMods).realMods
        ((t.account cfg held).real ||| t.mods.oneshotLockedMods) := hend.covered.real.or hshifts
    have hcovered : (t.mods.addMods t.heldMods).Covered (t.account cfg held) one :=
      hend.covered.edit hreal hend.covered.weak (.refl _) (.refl _) rfl rfl ⟨rfl, rfl⟩
    exact ⟨hcovered, hend.word⟩
  · exact hend

theorem capsWordPressUser_eq (keycode : Nat) (m : ModsState) :
    ∃ weak, Within weak (modBit kcLsft) ∧ (capsWordPressUser keycode m.clearWeakMods).2 = m.setWeakMods weak := by
  unfold capsWordPressUser
  split
  · exact ⟨0 ||| modBit kcLsft, by decide, rfl⟩
  · split
    · exact ⟨0, .zero_left _, rfl⟩
    · exact ⟨0, .zero_left _, rfl⟩

theorem letter_within (hactive : s.capsWordActive = true) {weak : Mods} (hweak : Within weak (modBit kcLsft)) :
    Within weak (s.account cfg held).weak := by
  have hshift : s.capsShift = modBit kcLsft := by simp [capsShift, hactive]
  exact (hshift ▸ hweak).or_of_left _

theorem covered_asks (h : s.mods.Covered (s.account cfg held) one) (hactive : s.capsWordActive = true) (asked : Nat) :
    let m := (capsWordPressUser asked s.mods.clearWeakMods).2
    ((if cfg.invertOnShift ∧ s.heldMods ≠ 0 then m.setWeakMods (m.weakMods ^^^ modBit kcLsft)
      else m).sendKeyboardReport cfg.toModsSettings now).Covered (s.account cfg held) one := by
  intro m
  obtain ⟨weak, hweak, heq⟩ : ∃ weak, Within weak (modBit kcLsft) ∧ m = s.mods.setWeakMods weak :=
    capsWordPressUser_eq asked s.mods
  obtain ⟨inverted, hinverted, hsent⟩ : ∃ inverted, Within inverted (modBit kcLsft) ∧
      (if cfg.invertOnShift ∧ s.heldMods ≠ 0 then m.setWeakMods (m.weakMods ^^^ modBit kcLsft) else m) =
        s.mods.setWeakMods inverted := by
    rw [heq]
    split
    · exact ⟨weak ^^^ modBit kcLsft, hweak.xor (.refl _), rfl⟩
    · exact ⟨weak, hweak, rfl⟩
  rw [hsent]
  exact .send h.real (letter_within hactive hinverted) h.override_eq h.locks h.oneshot

theorem Inv.processPress (h : s.Inv cfg held one) (hactive : s.capsWordActive = true) (keycode : Nat)
    (record : Record) (mods : Mods) : (s.processPress cfg now keycode record mods).Inv cfg held one := by
  unfold CapsWord.processPress
  split
  · split
    · exact h
    · exact h.endWord
    · rename_i asked _
      simp only
      split
      · exact ⟨covered_asks h.covered hactive asked, h.word⟩
      · obtain ⟨weak, hweak, heq⟩ := capsWordPressUser_eq asked s.mods
        have hcovered : (s.mods.setWeakMods weak).Covered (s.account cfg held) one :=
          h.covered.edit h.covered.real (letter_within hactive hweak) (.refl _) (.refl _) rfl rfl ⟨rfl, rfl⟩
        rw [heq]
        exact Inv.endWord ⟨hcovered, h.word⟩
  · exact h.endWord

theorem Inv.processOff (h : s.Inv cfg held one) (keycode : Nat) (record : Record) (mods : Mods) :
    (s.processOff cfg now keycode record mods).Inv cfg held one := by
  have hon (t : CapsWord) (ht : t.Inv cfg held one) (on : Prop) [Decidable on] :
      (if on then t.capsWordOn cfg now else t).Inv cfg held one := by
    split
    · exact ht.capsWordOn
    · exact ht
  unfold CapsWord.processOff
  have hboth := hon s h (cfg.bothShiftsTurnsOn ∧ mods = modMaskShift)
  generalize (if cfg.bothShiftsTurnsOn ∧ mods = modMaskShift then s.capsWordOn cfg now else s) = t at hboth ⊢
  split
  · split
    · have hdouble := hon t hboth (t.tapped ∧ ¬ TimerExpired record.event.time t.timer)
      exact ⟨hdouble.covered, hdouble.word⟩
    · exact ⟨hboth.covered, hboth.word⟩
  · exact hboth

/-! ## Records -/

theorem wordMods_of_shift {mod : Mods} (hinvert : cfg.invertOnShift = true)
    (hshift : shiftKeycode k.keycode k.tapCount = kcLsft ∨ shiftKeycode k.keycode k.tapCount = kcRsft)
    (hmod : mod = modBit (shiftKeycode k.keycode k.tapCount)) : k.wordMods cfg = mod := by
  rw [HeldKey.wordMods, if_pos hinvert, HeldKey.shiftMod, if_pos hshift, hmod]

theorem within_off {x y z u : Mods} (h : Within x (y ||| z ||| u)) (mod : Mods) :
    Within (x &&& ~~~mod) (y &&& ~~~mod ||| z ||| u) := by
  rw [BitVec.or_assoc] at h ⊢
  exact h.and_not_or mod

variable {keycode : Nat} {record : Record}

theorem Inv.handleShift (h : s.Inv cfg held one) (hinvert : cfg.invertOnShift = true)
    (hheld : record.event.pressed = true → .ofRecord keycode record ∈ held) :
    (s.handleShift keycode record).2.Inv cfg held one := by
  unfold CapsWord.handleShift
  by_cases hshift : shiftKeycode keycode record.tap.count = kcLsft ∨ shiftKeycode keycode record.tap.count = kcRsft
  · simp only [if_pos hshift]
    have hword : (HeldKey.ofRecord keycode record).wordMods cfg = modBit (shiftKeycode keycode record.tap.count) :=
      wordMods_of_shift hinvert hshift rfl
    generalize modBit (shiftKeycode keycode record.tap.count) = mod at hword ⊢
    by_cases hactive : s.capsWordActive = true
    · simp only [if_pos hactive]
      have hnone : s.remembered = 0 := by simp [remembered, hactive]
      refine ⟨h.covered.mono ?_ (.refl _) ?_, ?_⟩
      · exact .or_mono (hnone ▸ .zero_left _) (.refl _)
      · exact .or_mono (.or_mono (hnone ▸ .zero_left _) (.refl _)) (.refl _)
      · show Within (if record.event.pressed then s.heldMods ||| mod else s.heldMods &&& ~~~mod) _
        split
        · next hpressed => exact .or h.word (hword ▸ within_unionOf (hheld hpressed))
        · exact (Within.and_left _ _).trans h.word
    · simp only [if_neg hactive]
      by_cases hmod : s.heldMods &&& mod ≠ 0
      · simp only [if_pos hmod]
        have hremembered : s.remembered = s.heldMods := by simp [remembered, hactive]
        have hleft : ({ s with heldMods := s.heldMods &&& ~~~mod, mods := s.mods.delMods mod } : CapsWord).remembered =
            s.heldMods &&& ~~~mod := by
          simp [remembered, hactive]
        refine ⟨h.covered.edit ?_ h.covered.weak ?_ (.refl _) rfl rfl ⟨rfl, rfl⟩, (Within.and_left _ _).trans h.word⟩
        · show Within (s.mods.realMods &&& ~~~mod)
            (_ ||| unionOf (HeldKey.realMods cfg) held ||| s.mods.oneshotLockedMods)
          have hreal : Within s.mods.realMods
              (s.remembered ||| unionOf (HeldKey.realMods cfg) held ||| s.mods.oneshotLockedMods) := h.covered.real
          rw [hleft]
          rw [hremembered] at hreal
          exact within_off hreal mod
        · refine .or (.or ?_ ?_) (.or_right _ _)
          · exact (s.remembered_within.trans (h.word.trans (wordMods_within held))).or_of_right _
          · exact (Within.or_right _ s.capsShift).or_of_left _
      · simp only [if_neg hmod]
        exact h
  · simp only [if_neg hshift]
    exact h

theorem handleShift_release (hreleased : record.event.pressed = false)
    (hthrough : (s.handleShift keycode record).1 = true) :
    (s.handleShift keycode record).2 = s ∧ s.heldMods &&& (HeldKey.ofRecord keycode record).shiftMod = 0 := by
  unfold CapsWord.handleShift HeldKey.shiftMod HeldKey.ofRecord at *
  by_cases hshift : shiftKeycode keycode record.tap.count = kcLsft ∨ shiftKeycode keycode record.tap.count = kcRsft
  · simp only [if_pos hshift] at hthrough ⊢
    split_ifs at hthrough ⊢ with hactive hmod
    · cases hreleased.symm.trans hthrough
    · exact ⟨rfl, not_not.mp hmod⟩
  · simp only [if_neg hshift]
    exact ⟨trivial, BitVec.and_zero⟩

theorem Inv.processCapsWord (h : s.Inv cfg held one)
    (hheld : record.event.pressed = true → .ofRecord keycode record ∈ held) :
    (s.processCapsWord cfg now keycode record).2.Inv cfg held one := by
  unfold CapsWord.processCapsWord
  split
  · split
    · exact h.capsWordToggle
    · exact h
  · have hshift : (if cfg.invertOnShift then s.handleShift keycode record else (true, s)).2.Inv cfg held one := by
      split
      · next hinvert => exact h.handleShift hinvert hheld
      · exact h
    generalize (if cfg.invertOnShift then s.handleShift keycode record else (true, s)) = shift at hshift ⊢
    simp only
    by_cases hthrough : shift.1 = true
    · rw [if_pos hthrough]
      by_cases hactive : shift.2.capsWordActive = true
      · rw [if_pos hactive]
        have hidle : (shift.2.resetIdleTimer cfg now).Inv cfg held one := hshift.resetIdleTimer
        have hstays : (shift.2.resetIdleTimer cfg now).capsWordActive = true := by
          unfold CapsWord.resetIdleTimer
          split
          · exact hactive
          · exact hactive
        simp only
        split
        · exact hidle.processPress hstays _ _ _
        · exact hidle
      · rw [if_neg hactive]
        exact hshift.processOff _ _ _
    · rw [if_neg hthrough]
      exact hshift

theorem processOff_heldMods (keycode : Nat) (record : Record) (mods : Mods) :
    (s.processOff cfg now keycode record mods).heldMods = s.heldMods := by
  have hon (t : CapsWord) (on : Prop) [Decidable on] :
      (if on then t.capsWordOn cfg now else t).heldMods = t.heldMods := by
    unfold CapsWord.capsWordOn CapsWord.resetIdleTimer
    split_ifs <;> rfl
  unfold CapsWord.processOff
  have hboth := hon s (cfg.bothShiftsTurnsOn ∧ mods = modMaskShift)
  generalize (if cfg.bothShiftsTurnsOn ∧ mods = modMaskShift then s.capsWordOn cfg now else s) = t at hboth ⊢
  split
  · split
    · exact (hon t _).trans hboth
    · exact hboth
  · exact hboth

theorem resetIdleTimer_heldMods : (s.resetIdleTimer cfg now).heldMods = s.heldMods := by
  unfold CapsWord.resetIdleTimer
  split <;> rfl

theorem processCapsWord_release (hreleased : record.event.pressed = false)
    (hthrough : (s.processCapsWord cfg now keycode record).1 = true) :
    (s.processCapsWord cfg now keycode record).2.heldMods &&& (HeldKey.ofRecord keycode record).wordMods cfg = 0 := by
  cases hinvert : cfg.invertOnShift with
  | false =>
    rw [HeldKey.wordMods, hinvert]
    exact BitVec.and_zero
  | true =>
    rw [HeldKey.wordMods, if_pos hinvert]
    unfold CapsWord.processCapsWord at hthrough ⊢
    by_cases htoggle : keycode = qkCapsWordToggle
    · rw [if_pos htoggle] at hthrough
      cases hthrough
    · simp only [if_neg htoggle, hinvert, if_true] at hthrough ⊢
      by_cases hshift : (s.handleShift keycode record).1 = true
      · obtain ⟨hsame, hoff⟩ := handleShift_release hreleased hshift
        rw [if_pos hshift, hsame]
        split
        · simp only [hreleased, Bool.false_eq_true, if_false]
          rw [resetIdleTimer_heldMods]
          exact hoff
        · rw [processOff_heldMods]
          exact hoff
      · rw [if_neg hshift] at hthrough
        cases hthrough

theorem processCapsWord_taken (h : (s.processCapsWord cfg now keycode record).1 = false) :
    keycode = qkCapsWordToggle ∨ cfg.invertOnShift = true ∧ (s.handleShift keycode record).1 = false ∧
      (s.processCapsWord cfg now keycode record).2 = (s.handleShift keycode record).2 := by
  unfold CapsWord.processCapsWord at h ⊢
  by_cases htoggle : keycode = qkCapsWordToggle
  · exact .inl htoggle
  · refine .inr ?_
    simp only [if_neg htoggle] at h ⊢
    cases hinvert : cfg.invertOnShift with
    | false =>
      simp only [hinvert, Bool.false_eq_true, if_false, if_true] at h
      split at h <;> cases h
    | true =>
      simp only [hinvert, if_true] at h ⊢
      cases hshift : (s.handleShift keycode record).1 with
      | false => exact ⟨trivial, rfl, by simp⟩
      | true =>
        rw [hshift, if_pos rfl] at h
        split at h <;> cases h

/-- A release that is taken is of a shift key, which is not remembered behind it. Where Caps Word is off the modifier of
the key goes too, and no report goes out. -/
theorem handleShift_taken (hreleased : record.event.pressed = false)
    (htaken : (s.handleShift keycode record).1 = false) : let mod := (HeldKey.ofRecord keycode record).shiftMod
    (shiftKeycode keycode record.tap.count = kcLsft ∨ shiftKeycode keycode record.tap.count = kcRsft) ∧
      (s.handleShift keycode record).2 =
        { s with
          heldMods := s.heldMods &&& ~~~mod
          mods := if s.capsWordActive then s.mods else s.mods.delMods mod } := by
  intro mod
  unfold CapsWord.handleShift at *
  by_cases hshift : shiftKeycode keycode record.tap.count = kcLsft ∨ shiftKeycode keycode record.tap.count = kcRsft
  · refine ⟨hshift, ?_⟩
    have hmod : mod = modBit (shiftKeycode keycode record.tap.count) := if_pos hshift
    rw [hmod]
    simp only [if_pos hshift, hreleased, Bool.false_eq_true, if_false] at htaken ⊢
    split_ifs at htaken ⊢
    · rfl
    · rfl
  · simp only [if_neg hshift] at htaken
    cases htaken

/-! ## Steps -/

def Swallows (cfg : CapsWordConfig) (s : CapsWord) : CapsWordEvent → Prop
  | .record keycode record _ =>
    cfg.invertOnShift = true ∧ record.event.pressed = false ∧ (s.handleShift keycode record).1 = false
  | .exec _ _ | .task _ => False

instance (cfg : CapsWordConfig) (s : CapsWord) (e : CapsWordEvent) : Decidable (s.Swallows cfg e) :=
  match e with
  | .record _ _ _ => inferInstanceAs (Decidable (_ ∧ _ ∧ _))
  | .exec _ _ | .task _ => inferInstanceAs (Decidable False)

theorem Swallows.invert {cfg : CapsWordConfig} {s : CapsWord} {e : CapsWordEvent} (h : s.Swallows cfg e) :
    cfg.invertOnShift = true := by
  cases e with
  | record keycode record now => exact h.1
  | exec pressed now => exact h.elim
  | task now => exact h.elim

end CapsWord

namespace CapsWordEvent

/-- The action is the tap toggle of modifiers, which stay on behind some of its releases. -/
def TapToggles (cfg : CapsWordConfig) : CapsWordEvent → Prop
  | .record keycode r _ => ∃ mods, (HeldKey.ofRecord keycode r).action cfg = .toggled mods
  | .exec _ _ | .task _ => False

end CapsWordEvent

namespace CapsWord

variable {cfg : CapsWordConfig} {held : List HeldKey} {one : Oneshots} {now : UInt16} {s : CapsWord} {k : HeldKey}
  {e : CapsWordEvent}

theorem covered_exec (h : s.mods.Covered (s.account cfg held) one) (pressed : Bool) (now : UInt16) :
    (s.mods.exec cfg.toModsSettings now pressed).Covered (s.account cfg held) one := by
  obtain ⟨weak, oneshot, time, hweak, hone, heq⟩ := s.mods.exec_eq cfg.toModsSettings now pressed
  rw [heq]
  exact h.edit h.real (hweak.trans h.weak) (.refl _) hone rfl rfl ⟨rfl, rfl⟩

theorem Inv.exec (h : s.Inv cfg held one) (pressed : Bool) (now : UInt16) :
    (s.step cfg (.exec pressed now)).Inv cfg held one :=
  ⟨covered_exec h.covered pressed now, h.word⟩

theorem Inv.press_record (h : s.Inv cfg held one) {keycode : Nat} {record : Record} (now : UInt16)
    (hpressed : record.event.pressed = true) (hone : one.Has ((HeldKey.ofRecord keycode record).oneshotMods cfg)) :
    (s.step cfg (.record keycode record now)).Inv cfg (.ofRecord keycode record :: held) one := by
  have hword : (s.processCapsWord cfg now keycode record).2.Inv cfg (.ofRecord keycode record :: held) one :=
    (h.hold _).processCapsWord fun _ => List.mem_cons_self
  show (s.processRecord cfg now keycode record).Inv _ _ _
  unfold CapsWord.processRecord
  simp only
  split
  · rw [hpressed]
    exact hword.press (ModsState.processReportAction_press _ _ _) hone
  · exact hword

theorem toggle_released (hk : k.keycode = qkCapsWordToggle) (m : ModsState) :
    k.oneshotMods cfg = 0 ∧ m.Released (k.action cfg) k.tapCount m := by
  have haction : k.action cfg = .key 0 0 := by
    rw [HeldKey.action, hk, toggle_action]
    rfl
  refine ⟨by rw [HeldKey.oneshotMods, haction], ?_⟩
  rw [haction]
  exact (ModsState.Edits.refl m).released (ModsState.within_and_not_zero _) (ModsState.within_and_not_zero _)
    (.inl ⟨rfl, rfl, rfl⟩)

theorem toggle_shiftMod (hk : k.keycode = qkCapsWordToggle) : k.shiftMod = 0 := by
  refine if_neg fun hshift => ?_
  rcases shiftKeycode_cases (hk ▸ hshift) with ⟨mod, rfl | rfl, heq⟩ | ⟨hmodTap, -, -⟩ | heq | heq
  · cases heq
  · cases heq
  · exact absurd hmodTap.2 (by decide)
  · cases heq
  · cases heq

theorem Inv.release_toggle (h : s.Inv cfg held one) (hk : k.keycode = qkCapsWordToggle) :
    s.Inv cfg (held.erase k) one := by
  obtain ⟨hone, hreleased⟩ := @toggle_released cfg k hk s.mods
  refine h.release hreleased ?_ ?_
  · rw [HeldKey.wordMods, toggle_shiftMod hk, ite_self]
    exact BitVec.and_zero
  · rw [hone]
    exact ⟨fun _ => .zero_left _, .zero_left _⟩

/-- The keys that stay, locks and the word answer for what is on. -/
structure Unstranded (cfg : CapsWordConfig) (held : List HeldKey) (one : Oneshots) (s : CapsWord) : Prop where
  real : Within s.mods.realMods
    (s.remembered ||| unionOf (HeldKey.realMods cfg) held ||| s.mods.oneshotLockedMods)
  report : Within s.mods.lastReport.mods
    (s.capsShift ||| unionOf (HeldKey.reportMods cfg) held ||| s.mods.oneshotLockedMods ||| one.pending s.mods.out)

/-- A shift that somebody else answers for is not left behind when `handle_shift` takes the release. -/
theorem Unstranded.covered (h : s.Unstranded cfg held one) {c : Account} (hcovered : s.mods.Covered c one) {mod : Mods}
    (hweak : Within s.mods.weakMods (s.capsShift ||| unionOf (HeldKey.weakMods cfg) held)) :
    let t : CapsWord :=
      { s with
        heldMods := s.heldMods &&& ~~~mod
        mods := if s.capsWordActive then s.mods else s.mods.delMods mod }
    t.mods.Covered (t.account cfg held) one := by
  intro t
  have hreport : Within s.mods.lastReport.mods
      ((t.account cfg held).report ||| s.mods.oneshotLockedMods ||| one.pending s.mods.out) := by
    refine h.report.trans (.or_mono (.or_mono ?_ (.refl _)) (.refl _))
    exact (Within.or_right t.remembered s.capsShift).or_mono (.refl _)
  cases hactive : s.capsWordActive with
  | true =>
    have hmods : t.mods = s.mods := by simp [t, hactive]
    have hnone : s.remembered = 0 := by simp [remembered, hactive]
    rw [hmods]
    refine ⟨?_, hweak, hcovered.override_eq, hcovered.locks, hcovered.oneshot, hreport⟩
    have hreal := h.real
    rw [hnone] at hreal
    exact hreal.trans (.or_mono (.or_mono (.zero_left _) (.refl _)) (.refl _))
  | false =>
    have hmods : t.mods = s.mods.delMods mod := by simp [t, hactive]
    have hleft : t.remembered = s.remembered &&& ~~~mod := by simp [remembered, t, hactive]
    rw [hmods]
    refine ⟨?_, hweak, hcovered.override_eq, hcovered.locks, hcovered.oneshot, hreport⟩
    show Within (s.mods.realMods &&& ~~~mod)
      (t.remembered ||| unionOf (HeldKey.realMods cfg) held ||| s.mods.oneshotLockedMods)
    rw [hleft]
    exact within_off h.real mod

/-- A release that `handle_shift` takes must leave nothing on that only its key answers for. -/
theorem Inv.release_record (h : s.Inv cfg held one) {keycode : Nat} {record : Record} (now : UInt16)
    (hreleased : record.event.pressed = false) (hone : one.Has ((HeldKey.ofRecord keycode record).oneshotMods cfg))
    (htoggle : ¬ (CapsWordEvent.record keycode record now).TapToggles cfg)
    (hslip : s.Swallows cfg (.record keycode record now) →
      s.Unstranded cfg (held.erase (.ofRecord keycode record)) one) :
    (s.step cfg (.record keycode record now)).Inv cfg (held.erase (.ofRecord keycode record)) one := by
  have hword : (s.processCapsWord cfg now keycode record).2.Inv cfg held one := h.processCapsWord
    fun hpressed => absurd (hreleased.symm.trans hpressed) Bool.false_ne_true
  have hstate : s.step cfg (.record keycode record now) = s.processRecord cfg now keycode record := rfl
  unfold CapsWord.processRecord at hstate
  simp only at hstate
  cases hthrough : (s.processCapsWord cfg now keycode record).1 with
  | true =>
    rw [hthrough, if_pos rfl, hreleased] at hstate
    rw [hstate]
    refine hword.release ?_ (processCapsWord_release hreleased hthrough) hone
    exact ModsState.processReportAction_release _ _ _ fun mods haction => htoggle ⟨mods, haction⟩
  | false =>
    rw [hthrough, if_neg Bool.false_ne_true] at hstate
    rcases processCapsWord_taken hthrough with rfl | ⟨hinvert, htaken, hsame⟩
    · rw [hstate]
      exact hword.release_toggle rfl
    · obtain ⟨hshift, hbehind⟩ := handleShift_taken hreleased htaken
      have hunstranded := hslip ⟨hinvert, hreleased, htaken⟩
      have hnone : (HeldKey.ofRecord keycode record).weakMods cfg = 0 := (HeldKey.action_of_shift hshift).1
      have hweak : Within s.mods.weakMods
          (s.capsShift ||| unionOf (HeldKey.weakMods cfg) (held.erase (.ofRecord keycode record))) := by
        refine h.covered.weak.trans ((Within.refl _).or_mono (erase_within (.refl _) ?_))
        rw [hnone]
        exact BitVec.and_zero
      rw [hstate, hsame, hbehind]
      refine ⟨hunstranded.covered h.covered hweak, ?_⟩
      refine erase_within ((Within.and_left _ _).trans h.word) ?_
      rw [HeldKey.wordMods, if_pos hinvert]
      exact and_not_and _ _

theorem Inv.step (h : s.Inv cfg held one) (hone : one.Has (e.oneshotMods cfg)) (htoggle : ¬ e.TapToggles cfg)
    (hslip : s.Swallows cfg e → s.Unstranded cfg (e.hold held) one) :
    (s.step cfg e).Inv cfg (e.hold held) one := by
  cases e with
  | exec pressed now => exact h.exec pressed now
  | task now => exact h.capsWordTask
  | record keycode record now =>
    cases hpressed : record.event.pressed with
    | true =>
      have hheld : (CapsWordEvent.record keycode record now).hold held = .ofRecord keycode record :: held :=
        if_pos hpressed
      rw [hheld]
      exact h.press_record now hpressed hone
    | false =>
      have hheld : (CapsWordEvent.record keycode record now).hold held = held.erase (.ofRecord keycode record) :=
        if_neg (by simp [hpressed])
      rw [hheld] at hslip ⊢
      exact h.release_record now hpressed hone htoggle hslip

end CapsWord

/-! ## Runs -/

namespace CapsTyping

/-- The release of a shift is taken while only its key answers for a real modifier. -/
def StrandsReal (cfg : CapsWordConfig) (t : CapsTyping) (e : CapsWordEvent) : Prop :=
  t.state.Swallows cfg e ∧
    ¬ Within t.state.mods.realMods
      (t.state.remembered ||| unionOf (HeldKey.realMods cfg) (e.hold t.held) ||| t.state.mods.oneshotLockedMods)
deriving Decidable

/-- The release of a shift is taken while only its key answers for a modifier of the last report. -/
def StrandsReport (cfg : CapsWordConfig) (t : CapsTyping) (e : CapsWordEvent) : Prop :=
  t.state.Swallows cfg e ∧
    ¬ Within t.state.mods.lastReport.mods
      (t.state.capsShift ||| unionOf (HeldKey.reportMods cfg) (e.hold t.held) ||| t.state.mods.oneshotLockedMods |||
        (t.oneshot ||| t.state.mods.oneshotMods ||| e.oneshotMods cfg))
deriving Decidable

variable {cfg : CapsWordConfig} {t : CapsTyping} {e : CapsWordEvent} {events : List CapsWordEvent}

theorem run_append (events : List CapsWordEvent) (e : CapsWordEvent) :
    CapsTyping.start.run cfg (events ++ [e]) = (CapsTyping.start.run cfg events).step cfg e := by
  rw [run, List.foldl_append]
  rfl

def oneshots (cfg : CapsWordConfig) (locks : Mods) (t : CapsTyping) (e : CapsWordEvent) : Oneshots where
  pending out := (if out = t.state.mods.out then t.oneshot else 0) ||| t.state.mods.oneshotMods ||| e.oneshotMods cfg
  locks := locks ||| e.oneshotMods cfg

theorem step_report {locks : Mods} (h : t.state.Inv cfg t.held ⟨fun _ => t.oneshot, locks⟩)
    (htoggle : ¬ e.TapToggles cfg) (hreal : ¬ t.StrandsReal cfg e) (hreport : ¬ t.StrandsReport cfg e) :
    (t.step cfg e).state.Inv cfg (t.step cfg e).held
      ⟨fun _ => (t.step cfg e).oneshot, locks ||| e.oneshotMods cfg⟩ := by
  have hwide : t.state.Inv cfg t.held (t.oneshots cfg locks e) := by
    refine h.widen (.or_left _ _) (fun out => (Within.or_right _ _).or_of_left _) ?_
    simp only [oneshots, if_true]
    exact (Within.or_left _ _).or_of_left _
  have hstep : (t.step cfg e).state.Inv cfg (t.step cfg e).held (t.oneshots cfg locks e) := by
    refine hwide.step ⟨fun _ => .or_right _ _, .or_right _ _⟩ htoggle fun hswallows => ⟨?_, ?_⟩
    · by_contra hstranded
      exact hreal ⟨hswallows, hstranded⟩
    · by_contra hstranded
      refine hreport ⟨hswallows, ?_⟩
      simpa only [oneshots, if_true] using hstranded
  exact hstep.widen (.refl _) (fun _ => hstep.covered.oneshot (t.step cfg e).state.mods.out) (.refl _)

def used (cfg : CapsWordConfig) (events : List CapsWordEvent) : Mods :=
  unionOf (CapsWordEvent.oneshotMods cfg) events.reverse

theorem used_append : used cfg (events ++ [e]) = used cfg events ||| e.oneshotMods cfg := by
  rw [used, List.reverse_append, List.reverse_singleton, List.singleton_append, unionOf_cons, BitVec.or_comm]
  rfl

theorem start_inv (one : Oneshots) : CapsTyping.start.state.Inv cfg [] one where
  covered := ⟨.zero_left _, .zero_left _, rfl, .zero_left _, fun _ => .zero_left _, .zero_left _⟩
  word := .zero_left _

theorem run_real (htoggle : ∀ e ∈ events, ¬ e.TapToggles cfg)
    (hslip : ∀ before e, before ++ [e] <+: events → ¬ (start.run cfg before).StrandsReal cfg e) :
    (start.run cfg events).state.Inv cfg (start.run cfg events).held ⟨fun _ => BitVec.allOnes 8, used cfg events⟩ := by
  induction events using List.reverseRecOn with
  | nil => exact start_inv _
  | append_singleton events e ih =>
    have hbefore := ih (fun d hd => htoggle d (List.mem_append_left _ hd))
      fun before d hd => hslip before d (hd.trans (List.prefix_append _ _))
    have hnot := hslip events e (List.prefix_refl _)
    have hwide : (start.run cfg events).state.Inv cfg (start.run cfg events).held
        ⟨fun _ => BitVec.allOnes 8, used cfg events ||| e.oneshotMods cfg⟩ :=
      hbefore.widen (.or_left _ _) (fun _ => .allOnes _) (.refl _)
    rw [run_append, used_append]
    refine hwide.step ?_ ?_ fun hswallows => ?_
    · exact ⟨fun _ => .allOnes _, .or_right _ _⟩
    · exact htoggle e (List.mem_append_right _ List.mem_cons_self)
    · refine ⟨?_, (Within.allOnes _).or_of_right _⟩
      by_contra hstranded
      exact hnot ⟨hswallows, hstranded⟩

theorem run_report (htoggle : ∀ e ∈ events, ¬ e.TapToggles cfg)
    (hslip : ∀ before e, before ++ [e] <+: events →
      ¬ (start.run cfg before).StrandsReal cfg e ∧ ¬ (start.run cfg before).StrandsReport cfg e) :
    let t := start.run cfg events
    t.state.Inv cfg t.held ⟨fun _ => t.oneshot, used cfg events⟩ ∧ Within t.oneshot (used cfg events) := by
  induction events using List.reverseRecOn with
  | nil => exact ⟨start_inv _, .refl _⟩
  | append_singleton events e ih =>
    have hbefore := ih (fun d hd => htoggle d (List.mem_append_left _ hd))
      fun before d hd => hslip before d (hd.trans (List.prefix_append _ _))
    obtain ⟨hreal, hreport⟩ := hslip events e (List.prefix_refl _)
    have hone := hbefore.1.covered.oneshot []
    rw [run_append, used_append]
    refine ⟨step_report hbefore.1 (htoggle e (List.mem_append_right _ List.mem_cons_self)) hreal hreport, ?_⟩
    refine .or_mono (.or ?_ (hone.trans hbefore.2)) (.refl _)
    split
    · exact hbefore.2
    · exact .zero_left _

theorem remembered_of_released {one : Oneshots} (h : t.state.Inv cfg t.held one) (hheld : t.held = []) :
    Within t.state.remembered 0 := by
  have hword := h.word
  rw [hheld] at hword
  exact t.state.remembered_within.trans hword

theorem real_of_released {one : Oneshots} (h : t.state.Inv cfg t.held one) (hheld : t.held = []) :
    Within t.state.mods.realMods t.state.mods.oneshotLockedMods := by
  have hnone := remembered_of_released h hheld
  have hreal := h.covered.real
  rw [hheld] at hreal
  refine hreal.trans (.or ?_ (.refl _))
  exact (Within.or hnone (.refl 0)).trans (.zero_left _)

theorem report_of_released {one : Oneshots} (h : t.state.Inv cfg t.held one) (hheld : t.held = []) :
    Within t.state.mods.lastReport.mods
      (t.state.capsShift ||| t.state.mods.oneshotLockedMods ||| one.pending t.state.mods.out) := by
  have hnone := remembered_of_released h hheld
  have hreport := h.covered.report
  rw [hheld] at hreport
  refine hreport.trans (.or_mono (.or_mono ?_ (.refl _)) (.refl _))
  exact .or (.or (hnone.trans (.zero_left _)) (.refl _)) (.zero_left _)

theorem used_eq_zero (hkeys : ∀ e ∈ events, e.oneshotMods cfg = 0) : Within (used cfg events) 0 := by
  refine unionOf_within fun e he => ?_
  rw [hkeys e (List.mem_reverse.mp he)]
  exact .refl _

end CapsTyping

/-- Where no key is held, no real modifier is left on but a lock, unless the release of a shift strands one; and the
last report has the shift of a word that goes on, and one-shot modifiers, unless such a release strands one there. -/
theorem caps_word_strands_no_shift (cfg : CapsWordConfig) (events : List CapsWordEvent)
    (htoggle : ∀ e ∈ events, ¬ e.TapToggles cfg)
    (hreal : cfg.invertOnShift = true → ∀ before e, before ++ [e] <+: events →
      ¬ (CapsTyping.start.run cfg before).StrandsReal cfg e) :
    let t := CapsTyping.start.run cfg events
    t.held = [] →
      (t.state.mods.oneshotLockedMods = 0 ∨ (∀ e ∈ events, e.oneshotMods cfg = 0) → t.state.mods.realMods = 0) ∧
      ((cfg.invertOnShift = true → ∀ before e, before ++ [e] <+: events →
          ¬ (CapsTyping.start.run cfg before).StrandsReport cfg e) →
        (t.state.mods.oneshotLockedMods = 0 →
          Within t.state.mods.lastReport.mods (t.state.capsShift ||| t.oneshot)) ∧
        ((∀ e ∈ events, e.oneshotMods cfg = 0) → Within t.state.mods.lastReport.mods t.state.capsShift)) := by
  intro t hheld
  have hrealNot (before : List CapsWordEvent) (e : CapsWordEvent) (hbefore : before ++ [e] <+: events) :
      ¬ (CapsTyping.start.run cfg before).StrandsReal cfg e :=
    fun hstrands => hreal hstrands.1.invert before e hbefore hstrands
  have hrun := CapsTyping.run_real htoggle hrealNot
  refine ⟨fun hlocks => ?_, fun hreport => ?_⟩
  · have hnone : Within t.state.mods.oneshotLockedMods 0 := by
      rcases hlocks with hlocked | hkeys
      · rw [hlocked]
        exact .refl _
      · exact hrun.covered.locks.trans (CapsTyping.used_eq_zero hkeys)
    exact ((CapsTyping.real_of_released hrun hheld).trans hnone).eq_zero
  · have hnot (before : List CapsWordEvent) (e : CapsWordEvent) (hbefore : before ++ [e] <+: events) :
        ¬ (CapsTyping.start.run cfg before).StrandsReal cfg e ∧
          ¬ (CapsTyping.start.run cfg before).StrandsReport cfg e :=
      ⟨hrealNot before e hbefore, fun hstrands => hreport hstrands.1.invert before e hbefore hstrands⟩
    obtain ⟨hinv, hone⟩ := CapsTyping.run_report htoggle hnot
    have hlast := CapsTyping.report_of_released hinv hheld
    refine ⟨fun hlocked => ?_, fun hkeys => ?_⟩
    · rw [hlocked] at hlast
      exact hlast.trans (.or_mono (.or (.refl _) (.zero_left _)) (.refl _))
    · have hused := CapsTyping.used_eq_zero hkeys
      refine hlast.trans (.or (.or (.refl _) ?_) ?_)
      · exact (hinv.covered.locks.trans hused).trans (.zero_left _)
      · exact (hone.trans hused).trans (.zero_left _)

/-! ## Words apart from shifts -/

namespace CapsWord

variable {cfg : CapsWordConfig} {held : List HeldKey} {one : Oneshots} {now : UInt16} {s : CapsWord} {k : HeldKey}
  {e : CapsWordEvent} {keycode : Nat} {record : Record}

def otherKeys (held : List HeldKey) : List HeldKey := held.filter fun k => k.shiftMod = 0

theorem mem_otherKeys : k ∈ otherKeys held ↔ k ∈ held ∧ k.shiftMod = 0 := by
  rw [otherKeys, List.mem_filter, decide_eq_true_eq]

theorem otherKeys_of_shiftless (h : ∀ k ∈ held, k.shiftMod = 0) : otherKeys held = held :=
  List.filter_eq_self.mpr fun k hk => decide_eq_true (h k hk)

theorem unionOf_subset {f : HeldKey → Mods} {held held' : List HeldKey} (h : held ⊆ held') :
    Within (unionOf f held) (unionOf f held') :=
  unionOf_within fun _ hk => within_unionOf (h hk)

theorem covered_subset {held' : List HeldKey} {m : ModsState} (h : m.Covered (s.account cfg held) one)
    (hsub : held ⊆ held') : m.Covered (s.account cfg held') one :=
  h.mono (.or_mono (.refl _) (unionOf_subset hsub)) (.or_mono (.refl _) (unionOf_subset hsub))
    (.or_mono (.refl _) (unionOf_subset hsub))

/-- While a word goes on, the keys that are no shifts answer for the modifiers, and no shift is remembered
otherwise. -/
structure Apart (cfg : CapsWordConfig) (held : List HeldKey) (one : Oneshots) (s : CapsWord) : Prop where
  inv : s.Inv cfg held one
  on : s.capsWordActive = true → s.mods.Covered (s.account cfg (otherKeys held)) one
  off : s.capsWordActive = false → s.heldMods = 0

theorem handleShift_off (hoff : s.capsWordActive = false) (hnone : s.heldMods = 0) :
    s.handleShift keycode record = (true, s) := by
  unfold CapsWord.handleShift
  simp [hoff, hnone]

theorem handleShift_other (h : (HeldKey.ofRecord keycode record).shiftMod = 0) :
    s.handleShift keycode record = (true, s) := by
  unfold CapsWord.handleShift
  refine if_neg fun hshift => ?_
  rw [HeldKey.shiftMod, HeldKey.ofRecord, if_pos hshift] at h
  rcases hshift with hleft | hright
  · rw [hleft] at h
    cases h
  · rw [hright] at h
    cases h

theorem otherKeys_subset_erase (hshift : k.shiftMod ≠ 0) : otherKeys held ⊆ held.erase k := by
  intro d hd
  obtain ⟨hheld, hother⟩ := mem_otherKeys.mp hd
  refine (List.mem_erase_of_ne ?_).mpr hheld
  rintro rfl
  exact hshift hother

theorem Apart.unstranded (h : s.Apart cfg held one) (hswallows : s.Swallows cfg e) :
    s.Unstranded cfg (e.hold held) one := by
  cases e with
  | exec pressed now => exact hswallows.elim
  | task now => exact hswallows.elim
  | record keycode record now =>
    obtain ⟨-, hreleased, htaken⟩ := hswallows
    have hactive : s.capsWordActive = true := by
      by_contra hoff
      rw [Bool.not_eq_true] at hoff
      rw [handleShift_off hoff (h.off hoff)] at htaken
      cases htaken
    have hshift : (HeldKey.ofRecord keycode record).shiftMod ≠ 0 := by
      intro hother
      rw [handleShift_other hother] at htaken
      cases htaken
    have hheld : (CapsWordEvent.record keycode record now).hold held = held.erase (.ofRecord keycode record) :=
      if_neg (by simp [hreleased])
    have hcovered := covered_subset (h.on hactive) (otherKeys_subset_erase hshift)
    have hnone : s.remembered = 0 := by simp [remembered, hactive]
    have hreport := hcovered.report
    simp only [account, hnone] at hreport
    rw [hheld]
    refine ⟨hcovered.real, hreport.trans (.or_mono (.or_mono (.or_mono ?_ (.refl _)) (.refl _)) (.refl _))⟩
    exact .or (.zero_left _) (.refl _)

theorem endWord_inactive : (s.endWord cfg now).capsWordActive = false := by
  unfold CapsWord.endWord
  simp only
  split <;> exact capsWordOff_inactive

theorem covered_processPress (h : s.mods.Covered (s.account cfg held) one) (hactive : s.capsWordActive = true)
    (mods : Mods) (hstays : (s.processPress cfg now keycode record mods).capsWordActive = true) :
    (s.processPress cfg now keycode record mods).mods.Covered (s.account cfg held) one := by
  have hends (t : CapsWord) (ht : (t.endWord cfg now).capsWordActive = true) : False :=
    Bool.false_ne_true (endWord_inactive.symm.trans ht)
  unfold CapsWord.processPress at hstays ⊢
  split at hstays
  · rename_i hplain
    rw [if_pos hplain]
    generalize CapsWordPress.ofKeycode cfg keycode record.tap.count = press at hstays ⊢
    cases press with
    | ignored => exact h
    | ends => exact (hends _ hstays).elim
    | asks asked =>
      simp only at hstays ⊢
      by_cases hletter : (capsWordPressUser asked s.mods.clearWeakMods).1 = true
      · rw [if_pos hletter]
        exact covered_asks h hactive asked
      · rw [if_neg hletter] at hstays
        exact (hends _ hstays).elim
  · exact (hends _ hstays).elim

theorem account_of_active {t : CapsWord} (hs : s.capsWordActive = true) (ht : t.capsWordActive = true) :
    t.account cfg held = s.account cfg held := by
  simp [account, remembered, capsShift, hs, ht]

theorem covered_processCapsWord (h : s.mods.Covered (s.account cfg held) one) (hactive : s.capsWordActive = true)
    (hother : (HeldKey.ofRecord keycode record).shiftMod = 0)
    (hstays : (s.processCapsWord cfg now keycode record).2.capsWordActive = true) :
    (s.processCapsWord cfg now keycode record).2.mods.Covered (s.account cfg held) one := by
  have hshift : (if cfg.invertOnShift then s.handleShift keycode record else (true, s)) = (true, s) := by
    split
    · exact handleShift_other hother
    · rfl
  have hidle : (s.resetIdleTimer cfg now).capsWordActive = true ∧ (s.resetIdleTimer cfg now).mods = s.mods := by
    unfold CapsWord.resetIdleTimer
    split
    · exact ⟨hactive, rfl⟩
    · exact ⟨hactive, rfl⟩
  unfold CapsWord.processCapsWord at hstays ⊢
  by_cases htoggle : keycode = qkCapsWordToggle
  · simp only [if_pos htoggle] at hstays ⊢
    split at hstays
    · rw [CapsWord.capsWordToggle, if_pos hactive, capsWordOff_inactive] at hstays
      cases hstays
    · rename_i hreleased
      rw [if_neg hreleased]
      exact h
  · simp only [if_neg htoggle, hshift, if_true, hactive] at hstays ⊢
    split at hstays
    · rename_i hpressed
      rw [if_pos hpressed, ← account_of_active hactive hidle.1]
      refine covered_processPress ?_ hidle.1 _ hstays
      rw [hidle.2, account_of_active hactive hidle.1]
      exact h
    · rename_i hreleased
      rw [if_neg hreleased, hidle.2]
      exact h

theorem Apart.on_other (h : s.Apart cfg held one) (hactive : s.capsWordActive = true)
    (hone : one.Has ((HeldKey.ofRecord keycode record).oneshotMods cfg))
    (htoggle : ¬ (CapsWordEvent.record keycode record now).TapToggles cfg)
    (hother : (HeldKey.ofRecord keycode record).shiftMod = 0)
    (hstays : (s.processRecord cfg now keycode record).capsWordActive = true) :
    (s.processRecord cfg now keycode record).mods.Covered
      (s.account cfg (otherKeys ((CapsWordEvent.record keycode record now).hold held))) one := by
  have hcovered : (s.processCapsWord cfg now keycode record).2.capsWordActive = true →
      (s.processCapsWord cfg now keycode record).2.mods.Covered (s.account cfg (otherKeys held)) one :=
    covered_processCapsWord (h.on hactive) hactive hother
  have htaken : (s.processCapsWord cfg now keycode record).1 = false → keycode = qkCapsWordToggle := by
    intro htaken
    refine (processCapsWord_taken htaken).resolve_right fun hshift => ?_
    have hthrough := hshift.2.1
    rw [handleShift_other hother] at hthrough
    cases hthrough
  have herase : otherKeys (held.erase (.ofRecord keycode record)) = (otherKeys held).erase (.ofRecord keycode record) :=
    List.erase_filter.symm
  have hcons : otherKeys (.ofRecord keycode record :: held) = .ofRecord keycode record :: otherKeys held :=
    List.filter_cons_of_pos (decide_eq_true hother)
  unfold CapsWord.processRecord at hstays ⊢
  generalize s.processCapsWord cfg now keycode record = result at hcovered htaken hstays ⊢
  obtain ⟨through, t⟩ := result
  dsimp only at hcovered htaken hstays ⊢
  have hon : t.capsWordActive = true := by
    split at hstays <;> exact hstays
  cases hpressed : record.event.pressed with
  | true =>
    rw [CapsWordEvent.hold, if_pos hpressed, hcons]
    have hheld := covered_subset (hcovered hon) (List.subset_cons_self (.ofRecord keycode record) _)
    split
    · exact covered_press hheld (ModsState.processReportAction_press _ _ _) hone
    · exact hheld
  | false =>
    rw [CapsWordEvent.hold, if_neg (by simp [hpressed]), herase]
    split
    · refine covered_release (hcovered hon) ?_ hone
      exact ModsState.processReportAction_release _ _ _ fun mods haction => htoggle ⟨mods, haction⟩
    · rename_i hnot
      have hkey := htaken ((Bool.not_eq_true _).mp hnot)
      exact covered_release (hcovered hon) (toggle_released (k := .ofRecord keycode record) hkey t.mods).2 hone

theorem Apart.on_shift (h : s.Apart cfg held one) (hactive : s.capsWordActive = true)
    (hinvert : cfg.invertOnShift = true) (hshift : (HeldKey.ofRecord keycode record).shiftMod ≠ 0) :
    (s.processRecord cfg now keycode record).mods.Covered
      (s.account cfg (otherKeys ((CapsWordEvent.record keycode record now).hold held))) one := by
  have htoggle : keycode ≠ qkCapsWordToggle := fun hkey => hshift (toggle_shiftMod hkey)
  have hkeycode : shiftKeycode keycode record.tap.count = kcLsft ∨ shiftKeycode keycode record.tap.count = kcRsft := by
    by_contra hother
    exact hshift (if_neg hother)
  have hmods : (s.processRecord cfg now keycode record).mods = s.mods := by
    simp [CapsWord.processRecord, CapsWord.processCapsWord, CapsWord.handleShift, htoggle, hinvert, hkeycode, hactive]
  rw [hmods]
  refine covered_subset (h.on hactive) fun d hd => ?_
  obtain ⟨hheld, hother⟩ := mem_otherKeys.mp hd
  refine mem_otherKeys.mpr ⟨?_, hother⟩
  rw [CapsWordEvent.hold]
  split
  · exact List.mem_cons_of_mem _ hheld
  · exact otherKeys_subset_erase hshift hd

theorem step_off_heldMods (hoff : s.capsWordActive = false) (hnone : s.heldMods = 0) : (s.step cfg e).heldMods = 0 := by
  cases e with
  | exec pressed now => exact hnone
  | task now =>
    rw [CapsWord.step, CapsWord.capsWordTask, if_neg (by simp [hoff])]
    exact hnone
  | record keycode record now =>
    have hword : (s.processCapsWord cfg now keycode record).2.heldMods = 0 := by
      have hshift : (if cfg.invertOnShift then s.handleShift keycode record else (true, s)) = (true, s) := by
        rw [handleShift_off hoff hnone, ite_self]
      unfold CapsWord.processCapsWord
      simp only [hshift, if_true]
      split
      · simp only
        split
        · obtain ⟨timer, heq⟩ := capsWordOn_eq cfg now hoff
          rw [CapsWord.capsWordToggle, if_neg (by simp [hoff]), heq]
          exact hnone
        · exact hnone
      · rw [if_neg (by simp [hoff])]
        exact (processOff_heldMods _ _ _).trans hnone
    rw [CapsWord.step, CapsWord.processRecord]
    simp only
    split <;> exact hword

theorem Apart.step (h : s.Apart cfg held one) (hinvert : cfg.invertOnShift = true)
    (hone : one.Has (e.oneshotMods cfg)) (htoggle : ¬ e.TapToggles cfg)
    (happart : (s.step cfg e).capsWordActive ≠ s.capsWordActive → ∀ k ∈ e.hold held, k.shiftMod = 0) :
    (s.step cfg e).Apart cfg (e.hold held) one := by
  have hinv := h.inv.step hone htoggle h.unstranded
  refine ⟨hinv, fun hon => ?_, fun hoff => ?_⟩
  · cases hactive : s.capsWordActive with
    | false =>
      rw [otherKeys_of_shiftless (happart (by simp [hon, hactive]))]
      exact hinv.covered
    | true =>
      have hcovered : (s.step cfg e).mods.Covered (s.account cfg (otherKeys (e.hold held))) one := by
        cases e with
        | exec pressed now => exact covered_exec (h.on hactive) pressed now
        | task now =>
          have hstays : s.capsWordTask cfg now = s := by
            refine if_neg fun htimeout => ?_
            rw [CapsWord.step, CapsWord.capsWordTask, if_pos htimeout, capsWordOff_inactive] at hon
            cases hon
          rw [CapsWord.step, hstays]
          exact h.on hactive
        | record keycode record now =>
          by_cases hother : (HeldKey.ofRecord keycode record).shiftMod = 0
          · exact h.on_other hactive hone htoggle hother hon
          · exact h.on_shift hactive hinvert hother
      rw [account_of_active hactive hon]
      exact hcovered
  · cases hactive : s.capsWordActive with
    | false => exact step_off_heldMods hactive (h.off hactive)
    | true =>
      have hnone : Within (unionOf (HeldKey.wordMods cfg) (e.hold held)) 0 := unionOf_within fun k hk => by
        rw [HeldKey.wordMods, happart (by simp [hoff, hactive]) k hk, ite_self]
        exact .refl _
      exact (hinv.word.trans hnone).eq_zero

theorem Apart.widen (h : s.Apart cfg held one) {later : Oneshots} (hlocks : Within one.locks later.locks)
    (hone : ∀ out, Within s.mods.oneshotMods (later.pending out))
    (hreport : Within (one.pending s.mods.out) (later.pending s.mods.out)) : s.Apart cfg held later where
  inv := h.inv.widen hlocks hone hreport
  on hactive :=
    { h.on hactive with
      locks := (h.on hactive).locks.trans hlocks
      oneshot := hone
      report := (h.on hactive).report.trans ((Within.refl _).or_mono hreport) }
  off := h.off

end CapsWord

namespace CapsTyping

variable {cfg : CapsWordConfig} {t : CapsTyping} {e : CapsWordEvent} {events : List CapsWordEvent}

def StartsApart (cfg : CapsWordConfig) (t : CapsTyping) (e : CapsWordEvent) : Prop :=
  (t.step cfg e).state.capsWordActive ≠ t.state.capsWordActive → ∀ k ∈ e.hold t.held, k.shiftMod = 0
deriving Decidable

theorem apart_step {locks : Mods} (h : t.state.Apart cfg t.held ⟨fun _ => t.oneshot, locks⟩)
    (hinvert : cfg.invertOnShift = true) (htoggle : ¬ e.TapToggles cfg) (hstarts : t.StartsApart cfg e) :
    (t.step cfg e).state.Apart cfg (t.step cfg e).held
        ⟨fun _ => (t.step cfg e).oneshot, locks ||| e.oneshotMods cfg⟩ ∧
      ¬ t.StrandsReal cfg e ∧ ¬ t.StrandsReport cfg e := by
  have hwide : t.state.Apart cfg t.held (t.oneshots cfg locks e) := by
    refine h.widen (.or_left _ _) (fun out => (Within.or_right _ _).or_of_left _) ?_
    simp only [oneshots, if_true]
    exact (Within.or_left _ _).or_of_left _
  have hstep : (t.step cfg e).state.Apart cfg (t.step cfg e).held (t.oneshots cfg locks e) :=
    hwide.step hinvert ⟨fun _ => .or_right _ _, .or_right _ _⟩ htoggle hstarts
  refine ⟨?_, fun hstrands => hstrands.2 (hwide.unstranded hstrands.1).real, fun hstrands => hstrands.2 ?_⟩
  · exact hstep.widen (.refl _) (fun _ => hstep.inv.covered.oneshot (t.step cfg e).state.mods.out) (.refl _)
  · simpa only [oneshots, if_true] using (hwide.unstranded hstrands.1).report

/-- Where no shift is held at the start and the end of a word, a release that `handle_shift` takes strands nothing. -/
theorem starts_apart_strand_nothing (htoggle : ∀ e ∈ events, ¬ e.TapToggles cfg)
    (hstarts : ∀ before e, before ++ [e] <+: events → (start.run cfg before).StartsApart cfg e) :
    ∀ before e, before ++ [e] <+: events →
      ¬ (start.run cfg before).StrandsReal cfg e ∧ ¬ (start.run cfg before).StrandsReport cfg e := by
  intro before e hbefore
  by_cases hinvert : cfg.invertOnShift = true
  · have hrun : ∀ before : List CapsWordEvent, before <+: events → (start.run cfg before).state.Apart cfg
        (start.run cfg before).held ⟨fun _ => (start.run cfg before).oneshot, used cfg before⟩ := by
      intro before
      induction before using List.reverseRecOn with
      | nil => exact fun _ => ⟨start_inv _, nofun, fun _ => rfl⟩
      | append_singleton before e ih =>
        intro hprefix
        have hapart := ih ((List.prefix_append _ _).trans hprefix)
        have hmem : e ∈ events := hprefix.subset (List.mem_append_right _ List.mem_cons_self)
        rw [run_append, used_append]
        exact (apart_step hapart hinvert (htoggle e hmem) (hstarts before e hprefix)).1
    have hmem : e ∈ events := hbefore.subset (List.mem_append_right _ List.mem_cons_self)
    exact (apart_step (hrun before ((List.prefix_append _ _).trans hbefore)) hinvert (htoggle e hmem)
      (hstarts before e hbefore)).2
  · exact ⟨fun hstrands => hinvert hstrands.1.invert, fun hstrands => hinvert hstrands.1.invert⟩

end CapsTyping

/-! ## Words -/

/-- A word lasts for five seconds, and all keys come at once. -/
def wordsConfig (invertOnShift doubleTapShiftTurnsOn : Bool) : CapsWordConfig :=
  { plainSettings with
    invertOnShift := invertOnShift
    bothShiftsTurnsOn := false
    doubleTapShiftTurnsOn := doubleTapShiftTurnsOn
    idleTimeout := 5000
    tappingTerm := fun _ => 200
    magic := noMagic }

def keyEvents (col keycode : Nat) (pressed : Bool) (tapCount : Nat) : List CapsWordEvent :=
  [.exec pressed 0, .record keycode ⟨⟨⟨0, col⟩, 0, .key, pressed⟩, ⟨false, tapCount⟩, 0⟩ 0]

def tapEvents (col keycode tapCount : Nat) : List CapsWordEvent :=
  keyEvents col keycode true tapCount ++ keyEvents col keycode false tapCount

theorem of_prefix {events : List CapsWordEvent} {p : List CapsWordEvent → CapsWordEvent → Prop}
    (h : ∀ i (hi : i < events.length), p (events.take i) events[i]) :
    ∀ before e, before ++ [e] <+: events → p before e := by
  rintro before e ⟨after, rfl⟩
  have hbefore := h before.length (by simp)
  simpa using hbefore

/-- The left shift is tapped within a word, and Caps Word takes it. -/
def shiftWithinWord : List CapsWordEvent :=
  tapEvents 0 qkCapsWordToggle 0 ++ tapEvents 1 kcLsft 0 ++ tapEvents 0 qkCapsWordToggle 0

theorem caps_word_strands_no_shift_word :
    let t := CapsTyping.start.run (wordsConfig true false) shiftWithinWord
    t.state.mods.realMods = 0 ∧ Within t.state.mods.lastReport.mods t.state.capsShift := by
  have hkeys : ∀ e ∈ shiftWithinWord, e.oneshotMods (wordsConfig true false) = 0 := by decide
  have htoggle : ∀ e ∈ shiftWithinWord, ¬ e.TapToggles (wordsConfig true false) := by
    simp only [shiftWithinWord, tapEvents, keyEvents, List.cons_append, List.nil_append, List.forall_mem_cons]
    refine ⟨id, ?_, id, ?_, id, ?_, id, ?_, id, ?_, id, ?_, List.forall_mem_nil _⟩
    all_goals
      rintro ⟨mods, haction⟩
      cases haction
  obtain ⟨hreal, hreport⟩ := caps_word_strands_no_shift (wordsConfig true false) shiftWithinWord htoggle
    (fun _ => of_prefix (by decide)) (by decide)
  exact ⟨hreal (.inr hkeys), (hreport fun _ => of_prefix (by decide)).2 hkeys⟩

/-- No modifier is left where no key is held and no one-shot modifier is to come. -/
def CapsTyping.NothingLeft (t : CapsTyping) : Prop :=
  t.held = [] → t.state.mods.oneshotMods = 0 → t.state.mods.realMods = 0 ∧ t.state.mods.lastReport.mods = 0
deriving Decidable

/-- A word that goes on, five taps of `LSFT_T(KC_TRNS)`, a word that the second tap of a shift starts, and a shift that
is held at the end of its word. -/
theorem caps_word_strands_shift :
    ¬ (CapsTyping.start.run (wordsConfig false false)
        (tapEvents 0 qkCapsWordToggle 0 ++ tapEvents 1 4 0)).NothingLeft ∧
      ¬ (CapsTyping.start.run (wordsConfig false false) (tapEvents 0 0x2201 5)).NothingLeft ∧
      ¬ (CapsTyping.start.run (wordsConfig true true) (tapEvents 0 kcLsft 0 ++ tapEvents 0 kcLsft 0)).NothingLeft ∧
      ¬ (CapsTyping.start.run (wordsConfig true false)
        (tapEvents 0 qkCapsWordToggle 0 ++
          (keyEvents 1 kcLsft true 0 ++ tapEvents 2 0x38 0 ++ keyEvents 1 kcLsft false 0))).NothingLeft := by
  decide

end Keys
end VialQmk
