import VialQmk.Keys.KeyOverrideBalance
import Mathlib.Data.List.Induction

/-!
# Keys.KeyOverrideHeld

When `key_override_task` registers the replacement of an override: the trigger of the override should be down
then, and key overrides enabled.

* `OverrideStep.exec_tracking`: the last key and the switch are what the events make of them.
* `deferred_only_while_held`: so it is in every run whose events are `Watched`.
* `stale_last_key_registers`, `lifted_modifier_registers`: the two ways in which it is not. A key that is
  released while key overrides are off stays the last key, and a trigger that is a modifier is not seen to go up.
-/

namespace VialQmk
namespace Keys

def keysDownStep (down : List Nat) : OverrideStep → List Nat
  | .key _ keycode true => keycode :: down
  | .key _ keycode false => down.erase keycode
  | _ => down

def keysDown (steps : List OverrideStep) : List Nat := steps.foldl keysDownStep []

@[simp]
theorem keysDown_snoc (steps : List OverrideStep) (step : OverrideStep) :
    keysDown (steps ++ [step]) = keysDownStep (keysDown steps) step := by
  simp [keysDown]

/-- In each round, `key_override_task` registers a replacement only while the trigger of its override is down and
key overrides are enabled. -/
def OnlyWhileHeld (overrides : List (Option KeyOverride)) (steps : List OverrideStep) : Prop :=
  ∀ pre env post s code, steps = pre ++ .task env :: post → runOverrides overrides .initial pre = some s →
    (keyOverrideTask env s).log = s.log ++ [.replacement (.registerCode16 code)] →
      s.enabled = true ∧ ∃ index o, s.activeOverride = some (index, o) ∧ code = clearModsFrom o.replacement ∧
        (o.trigger = 0 ∨ o.trigger ∈ keysDown pre)

/-- What the events say by themselves: whether key overrides are on, and which key that is no modifier was pressed
last while they were, unless it was released while they were. -/
structure OverrideWatch where
  enabled : Bool
  last : Nat

namespace OverrideWatch

def key (w : OverrideWatch) (keycode : Nat) (keyDown : Bool) : OverrideWatch :=
  if keyDown = true ∧ keycode = qkKeyOverrideToggle then { w with enabled := !w.enabled }
  else if keyDown = true ∧ keycode = qkKeyOverrideOn then { w with enabled := true }
  else if keyDown = true ∧ keycode = qkKeyOverrideOff then { w with enabled := false }
  else if w.enabled = true ∧ isModifierKeycode keycode = false then
    if keyDown = true then { w with last := keycode }
    else if keycode = w.last then { w with last := 0 }
    else w
  else w

def step (w : OverrideWatch) : OverrideStep → OverrideWatch
  | .key _ keycode keyDown => w.key keycode keyDown
  | .task _ => w
  | .on => { w with enabled := true }
  | .off _ => { w with enabled := false }
  | .toggle _ => { w with enabled := !w.enabled }

def run (steps : List OverrideStep) : OverrideWatch := steps.foldl step ⟨true, 0⟩

@[simp]
theorem run_snoc (steps : List OverrideStep) (st : OverrideStep) : run (steps ++ [st]) = (run steps).step st := by
  simp [run]

end OverrideWatch

/-- The release of a modifier that is the trigger of the active override, whose replacement waits, while the other
modifiers still match. -/
def LiftsTrigger (s : OverrideState) (env : OverrideEnv) (keycode : Nat) (keyDown : Bool) : Prop :=
  keyDown = false ∧ s.deferredRegister ≠ 0 ∧ s.deferredReplacement = true ∧
    ∃ index o, s.activeOverride = some (index, o) ∧ o.trigger = keycode ∧
      keyOverrideMatchesActiveModifiers o (env.mods &&& ~~~ overrideModBit keycode) = true

/-- No modifier event, while key overrides are on, comes behind a last key that was released while they were off, and
none lifts a trigger. -/
def Watched (w : OverrideWatch) (s : OverrideState) (down : List Nat) : OverrideStep → Prop
  | .key env keycode keyDown => isModifierKeycode keycode = true → w.enabled = true →
      (w.last = 0 ∨ w.last ∈ down) ∧ ¬ LiftsTrigger s env keycode keyDown
  | _ => True

def WatchedRun (overrides : List (Option KeyOverride)) (steps : List OverrideStep) : Prop :=
  ∀ pre step post s, steps = pre ++ step :: post → runOverrides overrides .initial pre = some s →
    Watched (.run pre) s (keysDown pre) step

structure Scheduled (down : List Nat) (s : OverrideState) : Prop where
  inv : OverrideInv s
  notModifier : isModifierKeycode s.lastKeyDown = false
  held : s.deferredRegister ≠ 0 → s.deferredReplacement = true →
    s.enabled = true ∧ ∀ index o, s.activeOverride = some (index, o) → o.trigger = 0 ∨ o.trigger ∈ down

def Idle (s : OverrideState) : Prop := s.deferredRegister ≠ 0 → s.deferredReplacement = false

variable {overrides : List (Option KeyOverride)} {w : OverrideWatch} {keycode : Nat} {keyDown : Bool}
variable {s : OverrideState} {down : List Nat} {s' : OverrideState} {effectiveMods : UInt8} {sendKeyAction : Bool}

theorem Scheduled.of_idle (hinv : OverrideInv s) (hmod : isModifierKeycode s.lastKeyDown = false) (hidle : Idle s) :
    Scheduled down s :=
  ⟨hinv, hmod, fun hne htrue => absurd ((hidle hne).symm.trans htrue) Bool.false_ne_true⟩

/-- What neither the reports nor the active override have to do with. -/
def KeepsKeys (s s' : OverrideState) : Prop := s'.lastKeyDown = s.lastKeyDown ∧ s'.enabled = s.enabled

theorem KeepsKeys.trans {s₁ s₂ s₃ : OverrideState} (h : KeepsKeys s₁ s₂) (h' : KeepsKeys s₂ s₃) : KeepsKeys s₁ s₃ :=
  ⟨h'.1.trans h.1, h'.2.trans h.2⟩

theorem scheduleDeferredRegister_keeps (env : OverrideEnv) (keycode : Nat) (isReplacement : Bool)
    (s : OverrideState) : KeepsKeys s (scheduleDeferredRegister env keycode isReplacement s) := by
  rw [scheduleDeferredRegister]
  split <;> exact ⟨rfl, rfl⟩

theorem reregisterTrigger_keeps (env : OverrideEnv) (allowReregister : Bool) (o : KeyOverride) (s : OverrideState) :
    KeepsKeys s (reregisterTrigger env allowReregister o s) := by
  rw [reregisterTrigger]
  split
  · exact scheduleDeferredRegister_keeps ..
  · exact ⟨rfl, rfl⟩

theorem clearActiveOverride_keeps (env : OverrideEnv) (allowReregister : Bool) (s : OverrideState) :
    KeepsKeys s (clearActiveOverride env allowReregister s) := by
  cases hactive : s.activeOverride with
  | none =>
    rw [clearActiveOverride_none env allowReregister hactive]
    exact ⟨rfl, rfl⟩
  | some a =>
    simp only [clearActiveOverride, hactive]
    exact reregisterTrigger_keeps env allowReregister a.2 _

theorem clearActiveOverride_idle (env : OverrideEnv) (allowReregister : Bool) (hinv : OverrideInv s) :
    Idle (clearActiveOverride env allowReregister s) := by
  cases hactive : s.activeOverride with
  | none =>
    rw [clearActiveOverride_none env allowReregister hactive]
    exact hinv.deferred_of_none hactive
  | some a => exact (clearActiveOverride_some env allowReregister hactive).2.2.2.1

theorem clearActiveOverride_scheduled (env : OverrideEnv) (allowReregister : Bool) (hinv : OverrideInv s)
    (hmod : isModifierKeycode s.lastKeyDown = false) :
    Scheduled down (clearActiveOverride env allowReregister s) := by
  refine .of_idle (clearActiveOverride_preserves env allowReregister s hinv) ?_
    (clearActiveOverride_idle env allowReregister hinv)
  rw [(clearActiveOverride_keeps env allowReregister s).1]
  exact hmod

theorem checkActiveOverride_keeps (env : OverrideEnv) (keycode : Nat) (keyDown isMod : Bool) (effectiveMods : UInt8)
    (s : OverrideState) : KeepsKeys s (checkActiveOverride env keycode keyDown isMod effectiveMods s) := by
  rw [checkActiveOverride]
  split
  · exact ⟨rfl, rfl⟩
  · split
    · split
      · exact clearActiveOverride_keeps env true s
      · exact ⟨rfl, rfl⟩
    · have hlift : ∀ b : Bool, KeepsKeys s (if b = true then { s with activeOverrideTriggerIsDown := false } else s) :=
        fun b => by cases b <;> exact ⟨rfl, rfl⟩
      dsimp only
      split
      · exact (hlift _).trans (clearActiveOverride_keeps env false _)
      · exact hlift _

theorem findOverride_check {check : Nat → KeyOverride → Bool} {i index : Nat} {o : KeyOverride}
    (h : findOverride check i overrides = .found index o) : check index o = true := by
  induction overrides generalizing i with
  | nil =>
    rw [findOverride] at h
    split at h <;> cases h
  | cons a overrides ih =>
    cases a with
    | none => cases h
    | some o' =>
      rw [findOverride] at h
      split at h
      · cases h
        assumption
      · exact ih h

theorem shouldActivate_trigger {env : OverrideEnv} {isMod : Bool} {activeMods : UInt8} {index : Nat}
    {o : KeyOverride} (h : shouldActivate env s keycode keyDown isMod activeMods index o = true) :
    o.trigger = 0 ∨ (o.trigger = keycode ∧ keyDown = true) ∨ s.lastKeyDown = o.trigger := by
  rw [shouldActivate] at h
  repeat' split at h
  all_goals first
    | exact absurd h Bool.false_ne_true
    | exact of_decide_eq_true h

theorem removeTrigger_keeps (o : KeyOverride) (triggerDown noTrigger : Bool) (s : OverrideState) :
    KeepsKeys s (removeTrigger o triggerDown noTrigger s) ∧
      (removeTrigger o triggerDown noTrigger s).deferredRegister = s.deferredRegister ∧
      (removeTrigger o triggerDown noTrigger s).deferredReplacement = s.deferredReplacement := by
  rw [removeTrigger]
  split
  · split <;> exact ⟨⟨rfl, rfl⟩, rfl, rfl⟩
  · exact ⟨⟨rfl, rfl⟩, rfl, rfl⟩

theorem registerReplacement_keeps (env : OverrideEnv) (isMod : Bool) (index : Nat) (o : KeyOverride)
    (s : OverrideState) :
    KeepsKeys s (registerReplacement env isMod index o s) ∧
      (registerReplacement env isMod index o s).activeOverride = s.activeOverride ∧
      (isMod = false → (registerReplacement env isMod index o s).deferredRegister = s.deferredRegister ∧
        (registerReplacement env isMod index o s).deferredReplacement = s.deferredReplacement) := by
  rw [registerReplacement]
  simp only
  split
  · split
    · rename_i hmod
      have hkeeps := scheduleDeferredRegister_keeps env (clearModsFrom o.replacement) true
        { s with weakOverrideMods := extractModBits o.replacement }
      have hfields := scheduleDeferredRegister_fields env (clearModsFrom o.replacement) true
        { s with weakOverrideMods := extractModBits o.replacement }
      exact ⟨hkeeps, hfields.2.1, fun hfalse => absurd (hfalse.symm.trans hmod) Bool.false_ne_true⟩
    · split <;> exact ⟨⟨rfl, rfl⟩, rfl, fun _ => ⟨rfl, rfl⟩⟩
  · exact ⟨⟨rfl, rfl⟩, rfl, fun _ => ⟨rfl, rfl⟩⟩

theorem activateOverride_keeps (env : OverrideEnv) (keycode : Nat) (keyDown isMod : Bool) (index : Nat)
    (o : KeyOverride) (s : OverrideState) :
    KeepsKeys s (activateOverride env keycode keyDown isMod index o s).2 := by
  have hclear := clearActiveOverride_keeps env false s
  simp only [activateOverride]
  generalize clearActiveOverride env false s = s₁ at hclear ⊢
  have hremove := (removeTrigger_keeps o (decide (o.trigger = keycode) && keyDown) (decide (o.trigger = 0))
    (markActive env index o s₁)).1
  generalize removeTrigger o _ _ _ = s₂ at hremove ⊢
  exact (hclear.trans hremove).trans (registerReplacement_keeps env isMod index o s₂).1

theorem tryActivatingOverride_keeps {env : OverrideEnv} {isMod activated : Bool} {mods : UInt8}
    (h : tryActivatingOverride overrides env keycode keyDown isMod mods s = some (sendKeyAction, activated, s')) :
    KeepsKeys s s' := by
  rw [tryActivatingOverride] at h
  split at h
  · cases h
    exact activateOverride_keeps ..
  · cases h
    exact ⟨rfl, rfl⟩
  · cases h

theorem activateOverride_scheduled {env : OverrideEnv} {isMod : Bool} {index : Nat} {o : KeyOverride}
    (hinv : OverrideInv s) (hmod : isModifierKeycode s.lastKeyDown = false) (henabled : s.enabled = true)
    (htrigger : isMod = true → o.trigger = 0 ∨ o.trigger ∈ down) :
    Scheduled down (activateOverride env keycode keyDown isMod index o s).2 := by
  have hpreserved := activateOverride_preserves env keycode keyDown isMod index o s hinv
  have hclear := clearActiveOverride_keeps env false s
  have hidle := clearActiveOverride_idle env false hinv
  simp only [activateOverride] at hpreserved ⊢
  generalize clearActiveOverride env false s = s₁ at hpreserved hclear hidle ⊢
  have hremove := removeTrigger_keeps o (decide (o.trigger = keycode) && keyDown) (decide (o.trigger = 0))
    (markActive env index o s₁)
  have hactive := (removeTrigger_active o (decide (o.trigger = keycode) && keyDown) (decide (o.trigger = 0))
    (markActive env index o s₁)).1
  generalize removeTrigger o _ _ _ = s₂ at hpreserved hremove hactive ⊢
  obtain ⟨hkeeps, hstays, hdeferred⟩ := registerReplacement_keeps env isMod index o s₂
  have hall : KeepsKeys s (registerReplacement env isMod index o s₂) := hclear.trans (hremove.1.trans hkeeps)
  refine ⟨hpreserved, hall.1 ▸ hmod, fun hne hrep => ⟨hall.2.trans henabled, fun i o' hsome => ?_⟩⟩
  rw [hstays, hactive] at hsome
  cases hsome
  cases isMod with
  | true => exact htrigger rfl
  | false =>
    rw [(hdeferred rfl).1, hremove.2.1] at hne
    rw [(hdeferred rfl).2, hremove.2.2] at hrep
    exact absurd ((hidle hne).symm.trans hrep) Bool.false_ne_true

def downAfter (down : List Nat) (keycode : Nat) (keyDown : Bool) : List Nat :=
  if keyDown = true then keycode :: down else down.erase keycode

theorem mem_downAfter {code : Nat} (hmem : code ∈ down) (hother : keyDown = false → code ≠ keycode) :
    code ∈ downAfter down keycode keyDown := by
  cases keyDown with
  | true => exact List.mem_cons_of_mem _ hmem
  | false => exact (List.mem_erase_of_ne (hother rfl)).mpr hmem

/-- What `process_key_override` does behind `try_activating_override`. -/
def afterTry (env : OverrideEnv) (keycode : Nat) (keyDown isMod : Bool) (effectiveMods : UInt8)
    (sendKeyAction activated : Bool) (s : OverrideState) : OverrideState :=
  let s := if sendKeyAction = true then s else s.write [.sendKeyboardReport]
  if activated = true then s else checkActiveOverride env keycode keyDown isMod effectiveMods s

theorem afterTry_activated {env : OverrideEnv} {isMod : Bool} (hs : Scheduled down s) :
    Scheduled down (afterTry env keycode keyDown isMod effectiveMods sendKeyAction true s) := by
  cases sendKeyAction with
  | true => exact hs
  | false => exact ⟨hs.inv.write_plain rfl, hs.notModifier, hs.held⟩

theorem modifierEvent_scheduled {env : OverrideEnv} {activated : Bool} (hs : Scheduled down s)
    (henabled : s.enabled = true) (hisMod : isModifierKeycode keycode = true)
    (hlast : s.lastKeyDown = 0 ∨ s.lastKeyDown ∈ down)
    (hlifted : keyDown = false → s.deferredRegister ≠ 0 → s.deferredReplacement = true →
      ∀ index o, s.activeOverride = some (index, o) → o.trigger = keycode →
        keyOverrideMatchesActiveModifiers o effectiveMods = false)
    (htry : tryActivatingOverride overrides env keycode keyDown true effectiveMods s =
      some (sendKeyAction, activated, s')) : Scheduled (downAfter down keycode keyDown)
      (afterTry env keycode keyDown true effectiveMods sendKeyAction activated s') := by
  rw [tryActivatingOverride] at htry
  split at htry
  · rename_i index o hfound
    cases htry
    refine afterTry_activated ?_
    refine activateOverride_scheduled hs.inv hs.notModifier henabled fun _ => ?_
    rcases shouldActivate_trigger (findOverride_check hfound) with hno | ⟨rfl, rfl⟩ | hlastKey
    · exact .inl hno
    · exact .inr List.mem_cons_self
    · rw [← hlastKey]
      refine hlast.imp_right fun hmem => mem_downAfter hmem fun _ heq => ?_
      exact absurd ((heq ▸ hs.notModifier).symm.trans hisMod) Bool.false_ne_true
  · cases htry
    show Scheduled _ (checkActiveOverride env keycode keyDown true effectiveMods s)
    cases hactive : s.activeOverride with
    | none =>
      simp only [checkActiveOverride, hactive]
      exact .of_idle hs.inv hs.notModifier (hs.inv.deferred_of_none hactive)
    | some a =>
      simp only [checkActiveOverride, hactive, if_true]
      split
      · exact clearActiveOverride_scheduled env true hs.inv hs.notModifier
      · rename_i hmatches
        refine ⟨hs.inv, hs.notModifier, fun hne hrep => ⟨henabled, fun index o hsome => ?_⟩⟩
        refine ((hs.held hne hrep).2 index o hsome).imp_right fun hmem => mem_downAfter hmem fun hup heq => ?_
        rw [hactive] at hsome
        cases hsome
        exact hmatches (hlifted hup hne hrep index o hactive heq)
  · cases htry

/-- Behind an event of another key the active override is gone, or nothing has changed for it. -/
theorem checkActiveOverride_key {env : OverrideEnv} (hinv : OverrideInv s)
    (hmod : isModifierKeycode s.lastKeyDown = false)
    (hstays : (∀ index o, s.activeOverride = some (index, o) → keyDown = false → keycode ≠ o.trigger) →
      Scheduled down s) : Scheduled down (checkActiveOverride env keycode keyDown false effectiveMods s) := by
  cases hactive : s.activeOverride with
  | none =>
    simp only [checkActiveOverride, hactive]
    exact hstays fun index o hsome => absurd (hactive.symm.trans hsome) (Option.some_ne_none (index, o)).symm
  | some a =>
    obtain ⟨i, o⟩ := a
    simp only [checkActiveOverride, hactive, Bool.false_eq_true, if_false]
    by_cases hlifted : (decide (keycode = o.trigger) && !keyDown) = true
    · have hlift : OverrideInv { s with activeOverrideTriggerIsDown := false } :=
        ⟨hinv.active, hinv.idle, hinv.deferred, hinv.owed, hinv.log⟩
      rw [hactive] at hlift
      rw [if_pos hlifted, if_pos (.inl hlifted)]
      exact clearActiveOverride_scheduled env false hlift hmod
    · rw [if_neg hlifted]
      split
      · exact clearActiveOverride_scheduled env false hinv hmod
      · refine hstays fun index o' hsome hup heq => hlifted ?_
        cases hactive.symm.trans hsome
        rw [Bool.and_eq_true, decide_eq_true_iff]
        exact ⟨heq, by rw [hup]; rfl⟩

theorem press_scheduled {env : OverrideEnv} {activated : Bool} (hinv : OverrideInv s)
    (hmod : isModifierKeycode s.lastKeyDown = false) (henabled : s.enabled = true) (hidle : Idle s)
    (htry : tryActivatingOverride overrides env keycode true false effectiveMods s =
      some (sendKeyAction, activated, s')) :
    Scheduled down (afterTry env keycode true false effectiveMods sendKeyAction activated s') := by
  rw [tryActivatingOverride] at htry
  split at htry
  · cases htry
    refine afterTry_activated ?_
    exact activateOverride_scheduled hinv hmod henabled fun hfalse => absurd hfalse Bool.false_ne_true
  · cases htry
    exact checkActiveOverride_key hinv hmod fun _ => .of_idle hinv hmod hidle
  · cases htry

theorem release_scheduled {env : OverrideEnv} (hs : Scheduled down s) : Scheduled (down.erase keycode)
      (checkActiveOverride env keycode false false effectiveMods (trackLastKey env keycode false s)) := by
  have htrack := trackLastKey_preserves env keycode false s hs.inv
  have hmod : isModifierKeycode (trackLastKey env keycode false s).lastKeyDown = false := by
    rw [trackLastKey, if_neg Bool.false_ne_true]
    split
    · rfl
    · exact hs.notModifier
  refine checkActiveOverride_key htrack hmod fun hother => ?_
  rw [trackLastKey, if_neg Bool.false_ne_true] at htrack hmod hother ⊢
  split
  · rename_i hlast
    rw [if_pos hlast] at htrack
    exact .of_idle htrack rfl fun hne => absurd rfl hne
  · rename_i hlast
    rw [if_neg hlast] at hother
    refine ⟨hs.inv, hs.notModifier, fun hne hrep => ⟨(hs.held hne hrep).1, fun index o hsome => ?_⟩⟩
    refine ((hs.held hne hrep).2 index o hsome).imp_right fun hmem => ?_
    exact (List.mem_erase_of_ne (Ne.symm (hother index o hsome rfl))).mpr hmem

theorem keyOverrideOff_scheduled {env : OverrideEnv} (hinv : OverrideInv s)
    (hmod : isModifierKeycode s.lastKeyDown = false) : Scheduled down (keyOverrideOff env s) :=
  clearActiveOverride_scheduled env false ⟨hinv.active, hinv.idle, hinv.deferred, hinv.owed, hinv.log⟩ hmod

theorem keyOverrideOn_scheduled (hs : Scheduled down s) : Scheduled down (keyOverrideOn s) :=
  ⟨keyOverrideOn_preserves s hs.inv, hs.notModifier, fun hne hrep => ⟨rfl, (hs.held hne hrep).2⟩⟩

theorem keyOverrideToggle_scheduled {env : OverrideEnv} (hs : Scheduled down s) :
    Scheduled down (keyOverrideToggle env s) := by
  rw [keyOverrideToggle]
  split
  · exact keyOverrideOff_scheduled hs.inv hs.notModifier
  · exact keyOverrideOn_scheduled hs

theorem Scheduled.press (hs : Scheduled down s) (keycode : Nat) : Scheduled (keycode :: down) s :=
  ⟨hs.inv, hs.notModifier, fun hne hrep => ⟨(hs.held hne hrep).1, fun index o hsome =>
    ((hs.held hne hrep).2 index o hsome).imp_right (List.mem_cons_of_mem _)⟩⟩

theorem processKeyOverride_scheduled {env : OverrideEnv} {answer : Bool} (hs : Scheduled down s)
    (hmodifier : isModifierKeycode keycode = true → s.enabled = true →
      (s.lastKeyDown = 0 ∨ s.lastKeyDown ∈ down) ∧ ¬ LiftsTrigger s env keycode keyDown)
    (h : processKeyOverride overrides env keycode keyDown s = some (answer, s')) :
    Scheduled (downAfter down keycode keyDown) s' := by
  simp only [processKeyOverride] at h
  split at h
  · rename_i htoggle
    cases h
    rw [downAfter, if_pos htoggle.1]
    exact keyOverrideToggle_scheduled (hs.press keycode)
  split at h
  · rename_i hon
    cases h
    rw [downAfter, if_pos hon.1]
    exact keyOverrideOn_scheduled (hs.press keycode)
  split at h
  · cases h
    exact keyOverrideOff_scheduled hs.inv hs.notModifier
  split at h
  · -- While key overrides are off nothing waits.
    rename_i hoff
    cases h
    refine .of_idle hs.inv hs.notModifier fun hne => Bool.eq_false_iff.mpr fun hrep => ?_
    exact Bool.false_ne_true (hoff.symm.trans (hs.held hne hrep).1)
  rename_i hon
  have henabled : s.enabled = true := (Bool.not_eq_false _).mp hon
  cases hisMod : isModifierKeycode keycode with
  | true =>
    obtain ⟨hlast, hlifted⟩ := hmodifier hisMod henabled
    simp only [hisMod, if_true, true_or] at h
    obtain ⟨⟨sendKeyAction, activated, s₁⟩, htry, heq⟩ := Option.map_eq_some_iff.mp h
    cases heq
    refine modifierEvent_scheduled hs henabled hisMod hlast (fun hup hne hrep index o hactive htrigger => ?_) htry
    rw [if_neg (Bool.eq_false_iff.mp hup)]
    exact Bool.eq_false_iff.mpr fun hmatches => hlifted ⟨hup, hne, hrep, index, o, hactive, htrigger, hmatches⟩
  | false =>
    simp only [hisMod, Bool.false_eq_true, if_false, false_or] at h
    cases keyDown with
    | true =>
      rw [if_pos rfl] at h
      obtain ⟨⟨sendKeyAction, activated, s₁⟩, htry, heq⟩ := Option.map_eq_some_iff.mp h
      cases heq
      exact press_scheduled (trackLastKey_preserves env keycode true s hs.inv) hisMod henabled
        (fun hne => absurd rfl hne) htry
    | false =>
      rw [if_neg Bool.false_ne_true] at h
      cases h
      exact release_scheduled hs

/-- The last key and the switch are what the events make of them. -/
def Tracking (w : OverrideWatch) (s : OverrideState) : Prop := s.lastKeyDown = w.last ∧ s.enabled = w.enabled

theorem Tracking.keeps (h : Tracking w s) (hkeeps : KeepsKeys s s') : Tracking w s' :=
  ⟨hkeeps.1.trans h.1, hkeeps.2.trans h.2⟩

theorem keyOverrideOff_tracking (h : Tracking w s) (env : OverrideEnv) :
    Tracking { w with enabled := false } (keyOverrideOff env s) := by
  have hkeeps := clearActiveOverride_keeps env false { s with enabled := false }
  exact ⟨hkeeps.1.trans h.1, hkeeps.2⟩

theorem keyOverrideToggle_tracking (h : Tracking w s) (env : OverrideEnv) :
    Tracking { w with enabled := !w.enabled } (keyOverrideToggle env s) := by
  have henabled := h.2
  rw [keyOverrideToggle]
  cases hon : w.enabled with
  | true =>
    rw [if_pos (henabled.trans hon)]
    exact keyOverrideOff_tracking h env
  | false =>
    rw [if_neg (by rw [henabled, hon]; exact Bool.false_ne_true)]
    exact ⟨h.1, rfl⟩

theorem trackLastKey_tracking (h : Tracking w s) (env : OverrideEnv) (keycode : Nat) (keyDown : Bool) :
    Tracking (if keyDown = true then { w with last := keycode } else if keycode = w.last then { w with last := 0 } else w)
      (trackLastKey env keycode keyDown s) := by
  obtain ⟨hlast, henabled⟩ := h
  rw [trackLastKey, hlast]
  split
  · exact ⟨rfl, henabled⟩
  · split
    · exact ⟨rfl, henabled⟩
    · exact ⟨hlast, henabled⟩

theorem processKeyOverride_tracking {env : OverrideEnv} {answer : Bool} (hw : Tracking w s)
    (h : processKeyOverride overrides env keycode keyDown s = some (answer, s')) :
    Tracking (w.key keycode keyDown) s' := by
  simp only [processKeyOverride] at h
  rw [OverrideWatch.key]
  split at h
  · rename_i htoggle
    cases h
    rw [if_pos htoggle]
    exact keyOverrideToggle_tracking hw env
  rename_i htoggle
  rw [if_neg htoggle]
  split at h
  · rename_i hon
    cases h
    rw [if_pos hon]
    exact ⟨hw.1, rfl⟩
  rename_i hon
  rw [if_neg hon]
  split at h
  · rename_i hoff
    cases h
    rw [if_pos hoff]
    exact keyOverrideOff_tracking hw env
  rename_i hoff
  rw [if_neg hoff]
  split at h
  · rename_i hdisabled
    cases h
    rw [if_neg (by rw [← hw.2, hdisabled]; exact fun hand => Bool.false_ne_true hand.1)]
    exact hw
  rename_i hdisabled
  have henabled : w.enabled = true := hw.2.symm.trans ((Bool.not_eq_false _).mp hdisabled)
  -- whatever is activated or ends, the last key is the tracked one
  have htracked : Tracking
      (if w.enabled = true ∧ isModifierKeycode keycode = false then
        if keyDown = true then { w with last := keycode } else if keycode = w.last then { w with last := 0 } else w
      else w)
      (if isModifierKeycode keycode = true then s else trackLastKey env keycode keyDown s) := by
    cases hisMod : isModifierKeycode keycode with
    | true =>
      rw [if_neg (fun hand => Bool.false_ne_true hand.2.symm), if_pos rfl]
      exact hw
    | false =>
      rw [if_pos ⟨henabled, rfl⟩, if_neg Bool.false_ne_true]
      exact trackLastKey_tracking hw env keycode keyDown
  split at h
  · obtain ⟨⟨sendKeyAction, activated, s₁⟩, htry, heq⟩ := Option.map_eq_some_iff.mp h
    cases heq
    refine (htracked.keeps (tryActivatingOverride_keeps htry)).keeps ?_
    cases sendKeyAction <;> cases activated
    · exact checkActiveOverride_keeps env keycode keyDown _ _ (s₁.write [.sendKeyboardReport])
    · exact ⟨rfl, rfl⟩
    · exact checkActiveOverride_keeps env keycode keyDown _ _ s₁
    · exact ⟨rfl, rfl⟩
  · cases h
    exact htracked.keeps (checkActiveOverride_keeps ..)

theorem OverrideStep.exec_tracking {step : OverrideStep} (hw : Tracking w s) (h : step.exec overrides s = some s') :
    Tracking (w.step step) s' := by
  cases step with
  | key env keycode keyDown =>
    obtain ⟨⟨answer, s₁⟩, hproc, rfl⟩ := Option.map_eq_some_iff.mp h
    exact processKeyOverride_tracking hw hproc
  | task env =>
    cases h
    rw [keyOverrideTask]
    split
    · exact hw
    · split <;> exact hw
  | on =>
    cases h
    exact ⟨hw.1, rfl⟩
  | off env =>
    cases h
    exact keyOverrideOff_tracking hw env
  | toggle env =>
    cases h
    exact keyOverrideToggle_tracking hw env

theorem OverrideStep.exec_scheduled {step : OverrideStep} (hs : Scheduled down s) (hw : Tracking w s)
    (hwatched : Watched w s down step) (h : step.exec overrides s = some s') :
    Scheduled (keysDownStep down step) s' := by
  cases step with
  | key env keycode keyDown =>
    obtain ⟨⟨answer, s₁⟩, hproc, rfl⟩ := Option.map_eq_some_iff.mp h
    have hkey := processKeyOverride_scheduled hs (fun hmod hon => hw.1.symm ▸ hwatched hmod (hw.2.symm.trans hon)) hproc
    cases keyDown <;> exact hkey
  | task env =>
    cases h
    have htask := keyOverrideTask_preserves env s hs.inv
    rw [keyOverrideTask] at htask ⊢
    split
    · exact hs
    · rename_i hne
      rw [if_neg hne] at htask
      split
      · rename_i hdue
        rw [if_pos hdue] at htask
        exact .of_idle htask hs.notModifier fun hne => absurd rfl hne
      · exact hs
  | on =>
    cases h
    exact keyOverrideOn_scheduled hs
  | off env =>
    cases h
    exact keyOverrideOff_scheduled hs.inv hs.notModifier
  | toggle env =>
    cases h
    exact keyOverrideToggle_scheduled hs

theorem runOverrides_snoc (overrides : List (Option KeyOverride)) (s : OverrideState) (steps : List OverrideStep)
    (step : OverrideStep) :
    runOverrides overrides s (steps ++ [step]) = (runOverrides overrides s steps).bind fun s' => step.exec overrides s' := by
  rw [runOverrides, runOverrides, List.foldlM_append]
  simp only [List.foldlM_cons, List.foldlM_nil, bind_pure]
  rfl

theorem runOverrides_scheduled {steps : List OverrideStep} (hwatched : WatchedRun overrides steps)
    (h : runOverrides overrides .initial steps = some s) :
    Scheduled (keysDown steps) s ∧ Tracking (.run steps) s := by
  induction steps using List.reverseRecOn generalizing s with
  | nil =>
    cases h
    exact ⟨.of_idle initial_overrideInv rfl fun hne => absurd rfl hne, rfl, rfl⟩
  | append_singleton steps step ih =>
    rw [runOverrides_snoc] at h
    obtain ⟨s₁, hbefore, hstep⟩ := Option.bind_eq_some_iff.mp h
    obtain ⟨hs, hw⟩ := ih (fun pre st post s heq => hwatched pre st (post ++ [step]) s (by rw [heq]; simp)) hbefore
    rw [keysDown_snoc, OverrideWatch.run_snoc]
    exact ⟨step.exec_scheduled hs hw (hwatched steps step [] s₁ (by simp) hbefore) hstep, step.exec_tracking hw hstep⟩

theorem keyOverrideTask_registers {env : OverrideEnv} {code : Nat}
    (h : (keyOverrideTask env s).log = s.log ++ [.replacement (.registerCode16 code)]) :
    s.deferredRegister ≠ 0 ∧ s.deferredReplacement = true ∧ code = s.deferredRegister := by
  have hwritten : s.log ≠ s.log ++ [.replacement (.registerCode16 code)] := by simp
  rw [keyOverrideTask] at h
  split at h
  · exact absurd h hwritten
  · rename_i hne
    split at h
    · have hentry := List.append_cancel_left h
      split at hentry
      · rename_i hrep
        cases hentry
        exact ⟨hne, hrep, rfl⟩
      · cases hentry
    · exact absurd h hwritten

/-- In every run whose events are watched, each replacement that `key_override_task` registers belongs to an override
whose trigger is down. -/
theorem deferred_only_while_held {overrides : List (Option KeyOverride)} {steps : List OverrideStep}
    (hwatched : WatchedRun overrides steps) : OnlyWhileHeld overrides steps := by
  intro pre env post s code hsteps hrun hlog
  have hwatchedPre : WatchedRun overrides pre := fun pre' step post' s' heq =>
    hwatched pre' step (post' ++ .task env :: post) s' (by rw [hsteps, heq]; simp)
  obtain ⟨hinv, -, hheld⟩ := (runOverrides_scheduled hwatchedPre hrun).1
  obtain ⟨hne, hrep, hcode⟩ := keyOverrideTask_registers hlog
  obtain ⟨henabled, htrigger⟩ := hheld hne hrep
  obtain ⟨index, o, hactive, hreplacement, -, -⟩ := hinv.deferred hne hrep
  exact ⟨henabled, index, o, hactive, hcode.trans hreplacement, htrigger index o hactive⟩

theorem WatchedRun.nil : WatchedRun overrides [] :=
  fun _ _ _ _ heq => absurd heq (by simp)

theorem WatchedRun.snoc {steps : List OverrideStep} {step : OverrideStep} (hwatched : WatchedRun overrides steps)
    (hstep : ∀ s, runOverrides overrides .initial steps = some s → Watched (.run steps) s (keysDown steps) step) :
    WatchedRun overrides (steps ++ [step]) := by
  intro pre step' post s heq hrun
  rcases List.eq_nil_or_concat post with rfl | ⟨post, last, rfl⟩
  · obtain ⟨rfl, hlast⟩ := List.append_inj' heq rfl
    cases hlast
    exact hstep s hrun
  · rw [List.concat_eq_append, ← List.cons_append, ← List.append_assoc] at heq
    exact hwatched pre step' post s (List.append_inj' heq rfl).1 hrun

def OverrideStep.ofModifier : OverrideStep → Bool
  | .key _ keycode _ => isModifierKeycode keycode
  | .task _ | .on | .off _ | .toggle _ => false

theorem WatchedRun.others (more : List OverrideStep) : ∀ {steps : List OverrideStep}, WatchedRun overrides steps →
      (∀ step ∈ more, step.ofModifier = false) →
      WatchedRun overrides (steps ++ more) := by
  induction more with
  | nil => exact fun h _ => by rwa [List.append_nil]
  | cons step more ih =>
    intro steps h hother
    obtain ⟨hfirst, hrest⟩ := List.forall_mem_cons.mp hother
    have hstep : WatchedRun overrides (steps ++ [step]) := by
      refine h.snoc fun s _ => ?_
      cases step with
      | key env keycode keyDown => exact fun hmod => absurd (hfirst.symm.trans hmod) Bool.false_ne_true
      | task | on | off | toggle => exact trivial
    rw [List.append_cons]
    exact ih hstep hrest

def atTime (now : UInt32) : OverrideEnv := ⟨now, 0, 0, fun _ => true, fun _ _ => true⟩

/-- Backspace is held, and another key is tapped while key overrides are off. -/
def heldBackspace : List OverrideStep :=
  [.key (atTime 1000) 0x2A true, .key (atTime 1100) qkKeyOverrideOff true, .key (atTime 1150) qkKeyOverrideOff false,
    .key (atTime 1200) 0x1B true, .key (atTime 1250) 0x1B false, .key (atTime 1300) qkKeyOverrideOn true,
    .key (atTime 1350) qkKeyOverrideOn false]

/-- Shift is pressed, Delete is registered, and backspace goes up before shift does. -/
def backspaceThenShift : List OverrideStep :=
  heldBackspace ++ [.key (atTime 1400) 0xE1 true] ++ [.task (atTime 1500), .key (atTime 1600) 0x2A false] ++
    [.key { atTime 1700 with mods := 0x02 } 0xE1 false]

theorem deferred_only_while_held_backspace :
    OnlyWhileHeld [some (shiftBackspace false)] (backspaceThenShift ++ [.task (atTime 1800)]) := by
  have hkeys : WatchedRun [some (shiftBackspace false)] heldBackspace :=
    WatchedRun.nil.others heldBackspace (by decide)
  have hshift : WatchedRun [some (shiftBackspace false)] (heldBackspace ++ [.key (atTime 1400) 0xE1 true]) :=
    hkeys.snoc fun _ _ _ _ => ⟨.inr (by decide), fun hlifts => absurd hlifts.1 (by decide)⟩
  have hup := hshift.others [.task (atTime 1500), .key (atTime 1600) 0x2A false] (by decide)
  have hidle : ∀ s, runOverrides [some (shiftBackspace false)] .initial
      (heldBackspace ++ [.key (atTime 1400) 0xE1 true] ++ [.task (atTime 1500), .key (atTime 1600) 0x2A false]) =
      some s → s.deferredRegister = 0 := by
    intro s hrun
    have hzero : (runOverrides [some (shiftBackspace false)] .initial
        (heldBackspace ++ [.key (atTime 1400) 0xE1 true] ++ [.task (atTime 1500), .key (atTime 1600) 0x2A false])).map
        (·.deferredRegister) = some 0 := by decide +kernel
    rw [hrun] at hzero
    exact Option.some.inj hzero
  have hall : WatchedRun [some (shiftBackspace false)] backspaceThenShift :=
    hup.snoc fun s hrun _ _ => ⟨.inl (by decide), fun hlifts => hlifts.2.1 (hidle s hrun)⟩
  exact deferred_only_while_held (hall.others [.task (atTime 1800)] (by decide))

/-- Backspace is pressed, key overrides are switched off, it is released, they are switched on again, and then shift
is pressed. -/
def staleLastKey : List OverrideStep :=
  [.key (atTime 1000) 0x2A true, .key (atTime 1100) qkKeyOverrideOff true, .key (atTime 1200) qkKeyOverrideOff false,
    .key (atTime 1300) 0x2A false, .key (atTime 1400) qkKeyOverrideOn true, .key (atTime 1500) qkKeyOverrideOn false,
    .key (atTime 2000) 0xE1 true]

theorem staleLastKey_isSome : (runOverrides [some (shiftBackspace false)] .initial staleLastKey).isSome = true := by
  decide +kernel

/-- Delete is registered, and backspace is up. -/
theorem stale_last_key_registers :
    ¬ OnlyWhileHeld [some (shiftBackspace false)] (staleLastKey ++ [.task (atTime 2100)]) := by
  intro hheld
  obtain ⟨-, index, o, hactive, -, htrigger⟩ := hheld staleLastKey (atTime 2100) []
    ((runOverrides [some (shiftBackspace false)] .initial staleLastKey).get staleLastKey_isSome) 0x4C rfl
    (Option.some_get _).symm (by decide +kernel)
  have hbackspace : ((runOverrides [some (shiftBackspace false)] .initial staleLastKey).get
      staleLastKey_isSome).activeOverride.map (·.2.trigger) = some 0x2A := by decide +kernel
  rw [hactive] at hbackspace
  have hcode : o.trigger = 0x2A := Option.some.inj hbackspace
  rw [hcode] at htrigger
  exact absurd htrigger (by decide)

def controlRightShift : KeyOverride :=
  { shiftBackspace false with trigger := 0xE5, triggerMods := 1, suppressedMods := 0, replacement := 0x04 }

def liftedModifier : List OverrideStep :=
  [.key (atTime 1000) 0xE0 true, .key { atTime 1100 with mods := 0x01 } 0xE5 true,
    .key { atTime 1110 with mods := 0x21 } 0xE5 false]

theorem liftedModifier_isSome : (runOverrides [some controlRightShift] .initial liftedModifier).isSome = true := by
  decide +kernel

theorem lifted_modifier_registers :
    ¬ OnlyWhileHeld [some controlRightShift] (liftedModifier ++ [.task (atTime 1200)]) := by
  intro hheld
  obtain ⟨-, index, o, hactive, -, htrigger⟩ := hheld liftedModifier (atTime 1200) []
    ((runOverrides [some controlRightShift] .initial liftedModifier).get liftedModifier_isSome) 0x04 rfl
    (Option.some_get _).symm (by decide +kernel)
  have hshift : ((runOverrides [some controlRightShift] .initial liftedModifier).get
      liftedModifier_isSome).activeOverride.map (·.2.trigger) = some 0xE5 := by decide +kernel
  rw [hactive] at hshift
  have hcode : o.trigger = 0xE5 := Option.some.inj hshift
  rw [hcode] at htrigger
  exact absurd htrigger (by decide)

end Keys
end VialQmk
