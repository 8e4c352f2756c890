import VialQmk.Keys.ComboFire

/-!
# Keys.ComboTimer

The timer of the combos, whose value 0 stands for a stopped timer.

* `exec_inv`: what a step does to the key buffer. Whatever is handed on may call `process_combo` again.
* `exec_longestTerm`, `Off.exec`: the longest term is that of a combo, and nothing is due while combos are off.
* `combo_timer_runs`: as long as no press is kept back at the clock value 0, the timer runs while presses are kept
  back, and the timeout hands them on.
* `combo_timer_stopped`: a press at that value stops the timer, and no timeout follows.
-/

namespace VialQmk
namespace Keys

variable {w : Nat} {cfg : ComboConfig} {handOn : ComboEntry → ComboState w → ComboState w}

theorem comboDisable_keyBuffer (s : ComboState w) : (comboDisable cfg handOn s).keyBuffer = [] :=
  dumpKeyBuffer_keyBuffer _

variable {keycode now : Nat} {s : ComboState w}

theorem exec_release_keyBuffer {position : KeyPos} :
    ((ComboStep.key keycode position false now).exec cfg handOn s).keyBuffer = [] := by
  rw [exec_release]
  exact applyOrDump_keyBuffer _

theorem comboToggle_keyBuffer (s : ComboState w) : (comboToggle cfg handOn s).keyBuffer = [] ∨
    ((comboToggle cfg handOn s).keyBuffer = s.keyBuffer ∧ (comboToggle cfg handOn s).timer = s.timer) := by
  rw [comboToggle]
  split
  · exact .inl (comboDisable_keyBuffer s)
  · exact .inr ⟨rfl, rfl⟩

theorem comboTask_keyBuffer (henabled : s.enabled = true) (htimer : s.timer ≠ 0)
    (helapsed : s.longestTerm < timerElapsed now s.timer) : (comboTask cfg handOn now s).keyBuffer = [] := by
  rw [comboTask, if_neg (by simp [henabled]), if_pos ⟨htimer, helapsed⟩]
  split
  · exact dumpKeyBuffer_keyBuffer _
  · exact dumpKeyBuffer_keyBuffer s

/-- A step empties the key buffer, leaves it and the timer alone, or is a press that is kept back. -/
theorem exec_inv (step : ComboStep) (s : ComboState w) :
    (step.exec cfg handOn s).keyBuffer = [] ∨
      ((step.exec cfg handOn s).keyBuffer = s.keyBuffer ∧ (step.exec cfg handOn s).timer = s.timer) ∨
      ∃ keycode position now record, step = .key keycode position true now ∧ isComboSwitch keycode = false ∧
        keepsBack cfg s keycode = true ∧
        step.exec cfg handOn s = consumeKey cfg keycode record now (pressLoop cfg handOn keycode now s) := by
  cases step with
  | key keycode position pressed now =>
    cases pressed with
    | true =>
      cases hswitch : isComboSwitch keycode with
      | true =>
        rw [exec_switch hswitch]
        split
        · exact .inr (.inl ⟨rfl, rfl⟩)
        · split
          · exact .inl (comboDisable_keyBuffer _)
          · exact (comboToggle_keyBuffer _).imp_right .inl
      | false =>
        obtain ⟨record, -, heq⟩ := @exec_press w cfg handOn keycode now position s hswitch
        rw [heq]
        cases hkeeps : keepsBack cfg s keycode with
        | true => exact .inr (.inr ⟨keycode, position, now, record, rfl, hswitch, hkeeps, rfl⟩)
        | false => exact .inl (applyOrDump_keyBuffer _)
    | false => exact .inl exec_release_keyBuffer
  | task now =>
    rw [ComboStep.exec]
    by_cases henabled : s.enabled = true
    · by_cases hover : s.timer ≠ 0 ∧ s.longestTerm < timerElapsed now s.timer
      · exact .inl (comboTask_keyBuffer henabled hover.1 hover.2)
      · rw [comboTask, if_neg (by simp [henabled]), if_neg hover]
        exact .inr (.inl ⟨rfl, rfl⟩)
    · rw [comboTask, if_pos ((Bool.not_eq_true _).mp henabled)]
      exact .inr (.inl ⟨rfl, rfl⟩)
  | enable => exact .inr (.inl ⟨rfl, rfl⟩)
  | disable => exact .inl (comboDisable_keyBuffer s)
  | toggle => exact (comboToggle_keyBuffer s).imp_right .inl

/-- A combo is prepared, or some of the keys of one that has not fired are down. -/
def ComboPending (cfg : ComboConfig) (s : ComboState w) : Prop :=
  s.comboBuffer ≠ [] ∨ ∃ index < cfg.combos.length, (s.flags index).active = false ∧ (s.flags index).state ≠ 0

/-- Whatever is handed on, the longest term stays within the bound. -/
def KeepsBound (handOn : ComboEntry → ComboState w → ComboState w) (bound : Nat) : Prop :=
  ∀ e s, s.longestTerm ≤ bound → (handOn e s).longestTerm ≤ bound

/-- While presses are kept back for a combo the timer runs, and the timeout hands them on. -/
structure TimerSentinel (cfg : ComboConfig) (handOn : ComboEntry → ComboState w → ComboState w) (s : ComboState w) :
    Prop where
  running : s.keyBuffer ≠ [] → ComboPending cfg s → s.timer ≠ 0
  dumps : s.keyBuffer ≠ [] → ComboPending cfg s → s.enabled = true →
    ∀ now, s.longestTerm < timerElapsed now s.timer → (comboTask cfg handOn now s).keyBuffer = []
  /-- The timeout comes behind the longest term of the combos. -/
  bounded : ∀ bound, (∀ index < cfg.combos.length, cfg.term index ≤ bound) → KeepsBound handOn bound →
    s.longestTerm ≤ bound
  enabled : Quiet handOn → s.keyBuffer ≠ [] → ComboPending cfg s → s.enabled = true

/-- Whatever is handed on, a timer that runs is left running. -/
def KeepsRunning (handOn : ComboEntry → ComboState w → ComboState w) : Prop :=
  ∀ e s, s.timer ≠ 0 → (handOn e s).timer ≠ 0

/-- The timer runs behind a press at this time: the clock does not read 0, or `COMBO_STRICT_TIMER` leaves alone a timer
that runs already. -/
def StartsTimer (cfg : ComboConfig) (handOn : ComboEntry → ComboState w → ComboState w) (s : ComboState w) (now : Nat) :
    Prop :=
  now % 65536 ≠ 0 ∨ cfg.strictTimer = true ∧ s.timer ≠ 0 ∧ KeepsRunning handOn

/-- Every press that is kept back finds the timer running or starts it. -/
def ComboStep.Clocked (cfg : ComboConfig) (handOn : ComboEntry → ComboState w → ComboState w) (s : ComboState w) :
    ComboStep → Prop
  | .key keycode _ true now =>
    isComboSwitch keycode = false → keepsBack cfg s keycode = true → StartsTimer cfg handOn s now
  | _ => True

inductive ClockedRun (cfg : ComboConfig) (handOn : ComboEntry → ComboState w → ComboState w) : ComboState w →
    List ComboStep → Prop where
  | nil (s : ComboState w) : ClockedRun cfg handOn s []
  | cons {s : ComboState w} {step : ComboStep} {steps : List ComboStep} : step.Clocked cfg handOn s →
      ClockedRun cfg handOn (step.exec cfg handOn s) steps → ClockedRun cfg handOn s (step :: steps)

theorem dropComboFromBuffer_frame (index : Nat) (s : ComboState w) : ∃ flags ring,
    dropComboFromBuffer index s = { s with flags := flags, comboBuffer := ring } := by
  rw [dropComboFromBuffer]
  split
  · dsimp only
    split
    · exact ⟨_, s.comboBuffer.tail, rfl⟩
    · exact ⟨_, s.comboBuffer, rfl⟩
  · exact ⟨s.flags, s.comboBuffer, rfl⟩

section

variable {P : ComboState w → Prop} (hkeeps : ∀ e s, P s → P (handOn e s))
  (hmarks : ∀ s flags ring, P s → P { s with flags := flags, comboBuffer := ring })

include hkeeps hmarks

/-- What the flags and the ring say nothing about stays true, as long as what is handed on leaves it so. -/
theorem comboKeyReleased_inv {index keyIndex keyCount : Nat} {part : Bool} {s : ComboState w} (h : P s) :
    P (comboKeyReleased cfg handOn index keyIndex keyCount part s).2 := by
  have hmodify : ∀ f (s : ComboState w), P s → P (s.modifyFlags index f) := fun f s => hmarks s _ s.comboBuffer
  rw [comboKeyReleased]
  dsimp only
  apply hmodify
  split
  · split
    · obtain ⟨flags, ring, heq⟩ := dropComboFromBuffer_frame index s
      rw [heq]
      exact hmarks s flags ring h
    · exact h
  · split
    · rw [releaseCombo]
      split <;> exact hmodify _ _ (hkeeps _ s h)
    · split
      · exact h
      · exact h

end

/-- What the press and the release of a combo's key keep is kept by the loop over the combos. -/
theorem processSingleCombos_inv {P : ComboState w → Prop} {pressed : Bool}
    (hreleased : ∀ index keyIndex keyCount part s, P s →
      P (comboKeyReleased cfg handOn index keyIndex keyCount part s).2) :
    ∀ {rem : List Nat}, (∀ index ∈ rem, ∀ keyIndex keyCount s, s.enabled = true → P s →
      P (comboKeyPressed cfg index keyIndex keyCount now s)) → ∀ {any : Bool} {s : ComboState w}, P s →
        P (processSingleCombos cfg handOn keycode now pressed rem any s).2 := by
  intro rem
  induction rem with
  | nil => intro _ any s h; exact h
  | cons index rem ih =>
    intro hpressed any s h
    have hstep : P (processSingleCombo cfg handOn keycode now pressed index s).2 := by
      rw [processSingleCombo]
      split
      · exact h
      · dsimp only
        split
        · rename_i hpart
          exact hpressed index List.mem_cons_self _ _ s (Bool.and_eq_true_iff.mp hpart.2).2 h
        · exact hreleased _ _ _ _ s h
    rw [processSingleCombos]
    exact ih (fun i hi => hpressed i (List.mem_cons_of_mem index hi)) hstep

/-- What is true of the timer stays true of it, as long as what is handed on leaves it so. -/
theorem processSingleCombos_timer {P : Nat → Prop} (hkeeps : ∀ e s, P s.timer → P (handOn e s).timer)
    {keycode now : Nat} {pressed : Bool} {rem : List Nat} {any : Bool} {s : ComboState w} (h : P s.timer) :
    P (processSingleCombos cfg handOn keycode now pressed rem any s).2.timer := by
  refine processSingleCombos_inv (P := fun s => P s.timer)
    (fun index keyIndex keyCount part s => comboKeyReleased_inv hkeeps fun _ _ _ => id)
    (fun index _ keyIndex keyCount s _ htimer => ?_) h
  obtain ⟨flags, ring, longestTerm, heq, -⟩ := @comboKeyPressed_frame w cfg index keyIndex keyCount now s
  rw [heq]
  exact htimer

theorem consumeKey_timer (keycode : Nat) (record : Record) (now : Nat) (s : ComboState w) :
    (consumeKey cfg keycode record now s).timer =
      if cfg.strictTimer = true ∧ s.timer ≠ 0 then s.timer else now % 65536 := by
  rw [consumeKey]
  split <;> split <;> rfl

theorem StartsTimer.running (h : StartsTimer cfg handOn s now) (record : Record) :
    (consumeKey cfg keycode record now (pressLoop cfg handOn keycode now s)).timer ≠ 0 := by
  rw [consumeKey_timer]
  rcases h with hclock | ⟨hstrict, htimer, hkeeps⟩
  · split
    · rename_i hruns
      exact hruns.2
    · exact hclock
  · have hruns : (pressLoop cfg handOn keycode now s).timer ≠ 0 :=
      @processSingleCombos_timer w cfg handOn (fun timer => timer ≠ 0) hkeeps keycode now true
        (List.range cfg.combos.length) false (s.write (.keyDown keycode)) htimer
    rw [if_pos ⟨hstrict, hruns⟩]
    exact hruns

/-- Presses that are kept back have the timer running, for some combo or not. -/
def KeptTimed (s : ComboState w) : Prop := s.keyBuffer ≠ [] → s.timer ≠ 0

theorem KeptTimed.exec (h : KeptTimed s) {step : ComboStep} (hclocked : step.Clocked cfg handOn s) :
    KeptTimed (step.exec cfg handOn s) := by
  rcases @exec_inv w cfg handOn step s with hempty | ⟨hbuffer, htimer⟩ | ⟨keycode, position, now, record, rfl, hswitch,
    hkeeps, heq⟩
  · exact fun hne => absurd hempty hne
  · rw [KeptTimed, hbuffer, htimer]
    exact h
  · rw [heq]
    exact fun _ => (hclocked hswitch hkeeps).running record

theorem KeptTimed.run {steps : List ComboStep} (h : KeptTimed s) (hrun : ClockedRun cfg handOn s steps) :
    KeptTimed (runCombos cfg handOn s steps) := by
  induction hrun with
  | nil s => exact h
  | cons hclocked _ ih => exact ih (h.exec hclocked)

section

variable {P : ComboState w → Prop} (hkeeps : ∀ e s, P s → P (handOn e s))
  (hbuffer : ∀ s buffer next, P s → P { s with keyBuffer := buffer, keyBufferNext := next })

include hkeeps hbuffer

theorem dumpLoop_inv : ∀ {rounds i : Nat} {s : ComboState w}, P s → P (dumpLoop handOn rounds i s) := by
  intro rounds
  induction rounds with
  | zero => intro i s h; exact h
  | succ rounds ih =>
    intro i s h
    have hnext := hbuffer s s.keyBuffer (i + 1) h
    rw [dumpLoop]
    split
    · exact h
    · dsimp only
      split
      · exact ih hnext
      · exact ih (hbuffer _ _ _ (hkeeps _ _ hnext))

theorem dumpKeyBuffer_inv {s : ComboState w} (h : P s) : P (dumpKeyBuffer cfg handOn s) := by
  rw [dumpKeyBuffer]
  split
  · exact h
  · exact hbuffer _ _ _ (dumpLoop_inv hkeeps hbuffer h)

end

theorem applyOrDump_longestTerm (s : ComboState w) : (applyOrDump cfg handOn s).longestTerm = 0 := by
  obtain ⟨timer, heq⟩ := @applyOrDump_eq w cfg handOn s
  rw [heq]
  rfl

theorem consumeKey_longestTerm (keycode : Nat) (record : Record) (now : Nat) (s : ComboState w) :
    (consumeKey cfg keycode record now s).longestTerm = s.longestTerm := by
  rw [consumeKey]
  split <;> split <;> rfl

section

variable {bound : Nat} (hbound : KeepsBound handOn bound)

include hbound

theorem comboDisable_longestTerm (s : ComboState w) : (comboDisable cfg handOn s).longestTerm ≤ bound :=
  dumpKeyBuffer_inv (P := fun s => s.longestTerm ≤ bound) hbound (fun _ _ _ => id) (Nat.zero_le bound)

theorem comboToggle_longestTerm {s : ComboState w} (h : s.longestTerm ≤ bound) :
    (comboToggle cfg handOn s).longestTerm ≤ bound := by
  rw [comboToggle]
  split
  · exact comboDisable_longestTerm hbound s
  · exact h

theorem pressLoop_longestTerm (hterm : ∀ index < cfg.combos.length, cfg.term index ≤ bound) {keycode now : Nat}
    {s : ComboState w} (h : s.longestTerm ≤ bound) : (pressLoop cfg handOn keycode now s).longestTerm ≤ bound := by
  refine processSingleCombos_inv (P := fun s => s.longestTerm ≤ bound)
    (fun index keyIndex keyCount part s => comboKeyReleased_inv hbound fun _ _ _ => id)
    (fun index hindex keyIndex keyCount s _ hlongest => ?_) h
  obtain ⟨flags, ring, longestTerm, heq, hle⟩ := @comboKeyPressed_frame w cfg index keyIndex keyCount now s
  rw [heq]
  exact hle.trans (max_le hlongest (hterm index (List.mem_range.mp hindex)))

theorem exec_longestTerm (hterm : ∀ index < cfg.combos.length, cfg.term index ≤ bound) {s : ComboState w}
    (h : s.longestTerm ≤ bound) (step : ComboStep) : (step.exec cfg handOn s).longestTerm ≤ bound := by
  cases step with
  | key keycode position pressed now =>
    cases pressed with
    | true =>
      cases hswitch : isComboSwitch keycode with
      | true =>
        rw [exec_switch hswitch]
        split
        · exact h
        · split
          · exact comboDisable_longestTerm hbound _
          · exact comboToggle_longestTerm hbound h
      | false =>
        obtain ⟨record, -, heq⟩ := @exec_press w cfg handOn keycode now position s hswitch
        rw [heq]
        split
        · rw [consumeKey_longestTerm]
          exact pressLoop_longestTerm hbound hterm h
        · rw [applyOrDump_longestTerm]
          exact Nat.zero_le bound
    | false =>
      rw [exec_release, applyOrDump_longestTerm]
      exact Nat.zero_le bound
  | task now =>
    rw [ComboStep.exec, comboTask]
    split
    · exact h
    · split
      · split <;> exact Nat.zero_le bound
      · exact h
  | enable => exact h
  | disable => exact comboDisable_longestTerm hbound s
  | toggle => exact comboToggle_longestTerm hbound h

end

structure Clear (cfg : ComboConfig) (s : ComboState w) : Prop where
  ring : s.comboBuffer = []
  states : ∀ index < cfg.combos.length, (s.flags index).active = false → (s.flags index).state = 0

theorem Clear.not_pending (h : Clear cfg s) : ¬ ComboPending cfg s := by
  rintro (hring | ⟨index, hindex, hactive, hstate⟩)
  · exact hring h.ring
  · exact hstate (h.states index hindex hactive)

theorem Clear.clearCombos (h : s.comboBuffer = []) : Clear cfg (clearCombos cfg s) := by
  refine ⟨h, fun index hindex hactive => ?_⟩
  rw [Keys.clearCombos] at hactive ⊢
  dsimp only at hactive ⊢
  split at hactive
  · rename_i hcleared
    rw [if_pos hcleared]
    rfl
  · rename_i hkept
    exact absurd ⟨hindex, hactive⟩ hkept

theorem keyStateUp_of_onlyOneKeyIsDown {state : BitVec w} {keyIndex : Nat} (hone : onlyOneKeyIsDown state = true)
    (hbit : keyNotYetReleased state keyIndex = true) : keyStateUp state keyIndex = 0 := by
  rw [onlyOneKeyIsDown, decide_eq_true_eq] at hone
  apply BitVec.eq_of_getLsbD_eq
  intro j _
  rw [BitVec.ofNat_eq_ofNat, BitVec.getLsbD_zero, Bool.eq_false_iff, keyStateUp, ne_eq,
    Lib.getLsbD_and_not_one_shiftLeft]
  rintro ⟨hj, hne⟩
  exact hne (Lib.eq_of_and_sub_one hone hj hbit)

theorem KeyReleased.clear {s' : ComboState w} {index keyIndex : Nat}
    (hreleased : KeyReleased cfg index keyIndex s s') (h : Clear cfg s) : Clear cfg s' := by
  refine ⟨List.eq_nil_of_sublist_nil (h.ring ▸ hreleased.ring), fun i hi hactive => ?_⟩
  by_cases heq : i = index
  · subst heq
    rw [hreleased.state]
    rcases hreleased.active with hsame | ⟨-, hone, hbit⟩
    · rw [h.states i hi (hsame ▸ hactive)]
      exact BitVec.zero_and
    · exact keyStateUp_of_onlyOneKeyIsDown hone hbit
  · rw [hreleased.other i heq] at hactive ⊢
    exact h.states i hi hactive

def Off (cfg : ComboConfig) (s : ComboState w) : Prop := s.enabled = false → Clear cfg s

theorem applyCombo_enabled (index : Nat) (s : ComboState w) : (applyCombo cfg index s).enabled = s.enabled := by
  rw [applyCombo]
  split
  · rfl
  · dsimp only
    split
    · obtain ⟨flags, ring, heq⟩ := @dropComboFromBuffer_frame w index _
      rw [heq]
      rfl
    · obtain ⟨flags, ring, heq⟩ := @dropComboFromBuffer_frame w index _
      rw [heq]

section

variable (hquiet : Quiet handOn)

include hquiet

variable {s : ComboState w}

theorem dumpKeyBuffer_clear (h : Clear cfg s) : Clear cfg (dumpKeyBuffer cfg handOn s) := by
  refine dumpKeyBuffer_inv (P := Clear cfg) (fun e t h => ?_) (fun t _ _ h => ⟨h.ring, h.states⟩) h
  rw [hquiet]
  exact ⟨h.ring, h.states⟩

theorem comboDisable_clear (s : ComboState w) : Clear cfg (comboDisable cfg handOn s) :=
  dumpKeyBuffer_clear hquiet (.clearCombos rfl)

theorem comboToggle_off (s : ComboState w) : Off cfg (comboToggle cfg handOn s) := by
  rw [comboToggle]
  split
  · exact fun _ => comboDisable_clear hquiet s
  · exact fun hoff => absurd hoff Bool.noConfusion

theorem processSingleCombos_enabled {keycode now : Nat} {pressed : Bool} {rem : List Nat} {any : Bool}
    (s : ComboState w) : (processSingleCombos cfg handOn keycode now pressed rem any s).2.enabled = s.enabled := by
  refine processSingleCombos_inv (P := fun t => t.enabled = s.enabled)
    (fun index keyIndex keyCount part t h => ?_) (fun index _ keyIndex keyCount t _ h => ?_) rfl
  · rw [(comboKeyReleased_spec hquiet index keyIndex keyCount part t).frame]
    exact h
  · obtain ⟨flags, ring, longestTerm, heq, -⟩ := @comboKeyPressed_frame w cfg index keyIndex keyCount now t
    rw [heq]
    exact h

theorem processSingleCombos_clear {keycode now : Nat} {pressed : Bool} {rem : List Nat} {any : Bool}
    (hoff : s.enabled = false) (h : Clear cfg s) :
    Clear cfg (processSingleCombos cfg handOn keycode now pressed rem any s).2 := by
  refine (processSingleCombos_inv (P := fun t => t.enabled = false ∧ Clear cfg t)
    (fun index keyIndex keyCount part t ht => ?_) (fun index _ keyIndex keyCount t hon ht => ?_) ⟨hoff, h⟩).2
  · have hreleased := @comboKeyReleased_spec w cfg handOn hquiet index keyIndex keyCount part t
    exact ⟨by rw [hreleased.frame]; exact ht.1, hreleased.clear ht.2⟩
  · rw [ht.1] at hon
    cases hon

theorem dumpKeyBuffer_enabled (s : ComboState w) : (dumpKeyBuffer cfg handOn s).enabled = s.enabled := by
  refine dumpKeyBuffer_inv (P := fun t => t.enabled = s.enabled) (fun e t h => ?_) (fun _ _ _ => id) rfl
  rw [hquiet]
  exact h

theorem applyCombos_enabled (s : ComboState w) : (applyCombos cfg handOn s).enabled = s.enabled := by
  rw [applyCombos, clearCombos, dumpKeyBuffer_enabled hquiet]
  exact List.foldlRecOn (motive := fun t : ComboState w => t.enabled = s.enabled) s.comboBuffer
    (fun s index => applyCombo cfg index s) rfl fun t h index _ => (applyCombo_enabled index t).trans h

theorem applyOrDump_off (h : Off cfg s) : Off cfg (applyOrDump cfg handOn s) := by
  intro hoff
  obtain ⟨timer, heq⟩ := @applyOrDump_eq w cfg handOn s
  rw [heq] at hoff
  have hclear := h ((applyCombos_enabled hquiet s).symm.trans hoff)
  have hcleared : Clear cfg (clearCombos cfg (dumpKeyBuffer cfg handOn s)) :=
    .clearCombos (dumpKeyBuffer_clear hquiet hclear).ring
  rw [heq, applyCombos_of_empty hclear.ring]
  exact ⟨hcleared.ring, hcleared.states⟩

theorem pressLoop_off {keycode now : Nat} {pressed : Bool} {any : Bool} (h : Off cfg s) :
    Off cfg (processSingleCombos cfg handOn keycode now pressed (List.range cfg.combos.length) any s).2 := by
  intro hoff
  rw [processSingleCombos_enabled hquiet] at hoff
  exact processSingleCombos_clear hquiet hoff (h hoff)

theorem Off.exec (h : Off cfg s) (step : ComboStep) : Off cfg (step.exec cfg handOn s) := by
  have hlogged : ∀ e, Off cfg (s.write e) := fun e hoff => ⟨(h hoff).ring, (h hoff).states⟩
  cases step with
  | key keycode position pressed now =>
    cases pressed with
    | true =>
      cases hswitch : isComboSwitch keycode with
      | true =>
        rw [exec_switch hswitch]
        split
        · exact fun hoff => absurd hoff Bool.noConfusion
        · split
          · exact fun _ => comboDisable_clear hquiet _
          · exact comboToggle_off hquiet _
      | false =>
        obtain ⟨record, -, heq⟩ := @exec_press w cfg handOn keycode now position s hswitch
        have hloop : Off cfg (pressLoop cfg handOn keycode now s) := pressLoop_off hquiet (hlogged _)
        rw [heq]
        split
        · intro hoff
          obtain ⟨hflags, hring, henabled, -⟩ := @consumeKey_frame w cfg keycode record now
            (pressLoop cfg handOn keycode now s)
          have hclear := hloop (henabled.symm.trans hoff)
          exact ⟨hring.trans hclear.ring, by rw [hflags]; exact hclear.states⟩
        · exact applyOrDump_off hquiet hloop
    | false =>
      rw [exec_release]
      exact applyOrDump_off hquiet (pressLoop_off hquiet (hlogged _))
  | task now =>
    rw [ComboStep.exec, comboTask]
    split
    · exact h
    · rename_i hon
      split
      · split
        · exact fun hoff => absurd ((applyCombos_enabled hquiet s).symm.trans hoff) hon
        · exact fun hoff => absurd ((dumpKeyBuffer_enabled hquiet s).symm.trans hoff) hon
      · exact h
  | enable => exact fun hoff => absurd hoff Bool.noConfusion
  | disable => exact fun _ => comboDisable_clear hquiet s
  | toggle => exact comboToggle_off hquiet s

end

theorem runCombos_longestTerm {bound : Nat} (hbound : KeepsBound handOn bound)
    (hterm : ∀ index < cfg.combos.length, cfg.term index ≤ bound) (steps : List ComboStep) :
    ∀ s : ComboState w, s.longestTerm ≤ bound → (runCombos cfg handOn s steps).longestTerm ≤ bound := by
  induction steps with
  | nil => intro s h; exact h
  | cons step steps ih => exact fun s h => ih _ (exec_longestTerm hbound hterm h step)

theorem Off.run (hquiet : Quiet handOn) (steps : List ComboStep) :
    ∀ s : ComboState w, Off cfg s → Off cfg (runCombos cfg handOn s steps) := by
  induction steps with
  | nil => intro s h; exact h
  | cons step steps ih => exact fun s h => ih _ (h.exec hquiet step)

/-- In a run in which no press is kept back at the clock value 0, one that `COMBO_STRICT_TIMER` leaves to a running
timer apart, the timer runs whenever presses are kept back, and the first tick past the longest term hands them on. -/
theorem combo_timer_runs {steps : List ComboStep} (hrun : ClockedRun cfg handOn (.initial w) steps) :
    TimerSentinel cfg handOn (runCombos cfg handOn (.initial w) steps) := by
  have hkept : KeptTimed (runCombos cfg handOn (.initial w) steps) :=
    KeptTimed.run (fun hne => absurd rfl hne) hrun
  refine ⟨fun hbuffer _ => hkept hbuffer,
    fun hbuffer _ henabled _ helapsed => comboTask_keyBuffer henabled (hkept hbuffer) helapsed,
    fun bound hterm hbound => runCombos_longestTerm hbound hterm steps _ (Nat.zero_le bound),
    fun hquiet _ hpending => ?_⟩
  have hoff : Off cfg (runCombos cfg handOn (.initial w) steps) := Off.run hquiet steps _ fun h => nomatch h
  exact (Bool.not_eq_false _).mp fun hdisabled => (hoff hdisabled).not_pending hpending

def chordAt (first second : Nat) : List ComboStep :=
  [.key 0x04 ⟨0, 0⟩ true first, .key 0x05 ⟨0, 1⟩ true second]

theorem combo_timer_runs_chord :
    TimerSentinel fourCombos onlyLogged (runCombos fourCombos onlyLogged (.initial 8) (chordAt 65530 65537)) ∧
      (runCombos fourCombos onlyLogged (.initial 8) (chordAt 65530 65537)).timer = 1 :=
  ⟨combo_timer_runs (.cons (fun _ _ => .inl (by decide)) (.cons (fun _ _ => .inl (by decide)) (.nil _))),
    by decide +kernel⟩

/-- The combo is due, both presses are kept back, and the timer does not run. -/
theorem combo_timer_stopped : ¬ ∀ (cfg : ComboConfig) (handOn : ComboEntry → ComboState 8 → ComboState 8)
    (steps : List ComboStep), TimerSentinel cfg handOn (runCombos cfg handOn (.initial 8) steps) := by
  intro h
  have hkept : (runCombos fourCombos onlyLogged (.initial 8) (chordAt 65530 65536)).keyBuffer.length = 2 := by
    decide +kernel
  have hdue : (runCombos fourCombos onlyLogged (.initial 8) (chordAt 65530 65536)).comboBuffer = [0] := by
    decide +kernel
  have hstopped : (runCombos fourCombos onlyLogged (.initial 8) (chordAt 65530 65536)).timer = 0 := by
    decide +kernel
  refine (h fourCombos onlyLogged (chordAt 65530 65536)).running (fun hempty => ?_) (.inl ?_) hstopped
  · rw [hempty] at hkept
    cases hkept
  · rw [hdue]
    exact List.cons_ne_nil 0 []

theorem comboTask_of_stopped (h : s.timer = 0) : comboTask cfg handOn now s = s := by
  rw [comboTask]
  split
  · rfl
  · exact if_neg fun hover => hover.1 h

theorem pressLoop_timer_quiet (hquiet : Quiet handOn) (keycode now : Nat) (s : ComboState w) :
    (pressLoop cfg handOn keycode now s).timer = s.timer := by
  have hkeeps : ∀ e t, t.timer = s.timer → (handOn e t).timer = s.timer := by
    intro e t htimer
    rw [hquiet]
    exact htimer
  exact @processSingleCombos_timer w cfg handOn (fun timer => timer = s.timer) hkeeps keycode now true
    (List.range cfg.combos.length) false (s.write (.keyDown keycode)) rfl

theorem consumeKey_keyBuffer (keycode : Nat) (record : Record) (now : Nat) (s : ComboState w) :
    (consumeKey cfg keycode record now s).keyBuffer =
      if s.keyBuffer.length < cfg.keyBufferLength then s.keyBuffer ++ [⟨record, keycode, none⟩] else s.keyBuffer := by
  rw [consumeKey]
  by_cases hroom : s.keyBuffer.length < cfg.keyBufferLength <;> split <;>
    simp only [ComboState.write, hroom, ↓reduceIte]

theorem consumeKey_ne_nil (hroom : 0 < cfg.keyBufferLength) {record : Record} :
    (consumeKey cfg keycode record now s).keyBuffer ≠ [] := by
  rw [consumeKey_keyBuffer]
  split
  · exact List.append_ne_nil_of_right_ne_nil _ (List.cons_ne_nil _ [])
  · rename_i hfull
    intro hempty
    rw [hempty] at hfull
    exact hfull hroom

/-- Without a call of `process_combo` from what is handed on the condition is exact: any other press that is kept
back stays there, whatever the clock reads later, until the next key. -/
theorem not_clocked_stays (hquiet : Quiet handOn) (hroom : 0 < cfg.keyBufferLength) {step : ComboStep}
    (h : ¬ step.Clocked cfg handOn s) :
    (step.exec cfg handOn s).keyBuffer ≠ [] ∧ (step.exec cfg handOn s).timer = 0 ∧
      ∀ now, comboTask cfg handOn now (step.exec cfg handOn s) = step.exec cfg handOn s := by
  have hpress : ∃ keycode position now, step = .key keycode position true now ∧ isComboSwitch keycode = false ∧
      keepsBack cfg s keycode = true ∧ ¬ StartsTimer cfg handOn s now := by
    cases step with
    | key keycode position pressed now =>
      cases pressed with
      | true =>
        rw [ComboStep.Clocked, Classical.not_imp, Classical.not_imp] at h
        exact ⟨keycode, position, now, rfl, h⟩
      | false => exact absurd trivial h
    | task now => exact absurd trivial h
    | enable => exact absurd trivial h
    | disable => exact absurd trivial h
    | toggle => exact absurd trivial h
  obtain ⟨keycode, position, now, rfl, hswitch, hkeeps, hstarts⟩ := hpress
  rw [StartsTimer, not_or, not_not] at hstarts
  obtain ⟨hclock, hstrict⟩ := hstarts
  have hrunning : KeepsRunning handOn := fun e t htimer => by rwa [hquiet]
  obtain ⟨record, -, heq⟩ := @exec_press w cfg handOn keycode now position s hswitch
  rw [heq, if_pos hkeeps]
  have htimer : (consumeKey cfg keycode record now (pressLoop cfg handOn keycode now s)).timer = 0 := by
    rw [consumeKey_timer, pressLoop_timer_quiet hquiet, if_neg fun hruns => hstrict ⟨hruns.1, hruns.2, hrunning⟩]
    exact hclock
  exact ⟨consumeKey_ne_nil hroom, htimer, fun _ => comboTask_of_stopped htimer⟩

end Keys
end VialQmk
