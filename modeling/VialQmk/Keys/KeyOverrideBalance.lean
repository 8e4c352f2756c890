import VialQmk.Keys.KeyOverride

/-!
# Keys.KeyOverrideBalance

What an override registers it also unregisters.

* `key_overrides_balanced`: in every run at most one override is active at a time, no replacement is left
  registered when an override is deactivated, unless its custom action refused to let it be unregistered, and
  with none active no modifier is suppressed or added.
* `refused_replacement_stays`: a refusal leaves the replacement registered.
-/

namespace VialQmk
namespace Keys

def ReportCall.down : ReportCall → List Nat
  | .addKey code | .registerCode code => if code = 0 then [] else [code]
  | .registerCode16 code => if code % 256 = 0 then [] else [code % 256]
  | .delKey _ | .unregisterCode _ => []

def ReportCall.up : ReportCall → List Nat
  | .delKey code | .unregisterCode code => [code]
  | .addKey _ | .registerCode _ | .registerCode16 _ => []

def heldStep (held : List Nat) : OverrideEntry → List Nat
  | .replacement call => call.down ++ held.filter (· ∉ call.up)
  | _ => held

def heldReplacements (log : List OverrideEntry) : List Nat := log.foldl heldStep []

def owedStep (owed : List Nat) : OverrideEntry → List Nat
  | .refused _ => []
  | e => heldStep owed e

/-- Those of them that no custom action refused to unregister. -/
def owedReplacements (log : List OverrideEntry) : List Nat := log.foldl owedStep []

def activeStep (active : List Nat) : OverrideEntry → List Nat
  | .activated index => index :: active
  | .deactivated index => active.erase index
  | _ => active

def activeOverrides (log : List OverrideEntry) : List Nat := log.foldl activeStep []

@[simp]
theorem owedReplacements_snoc (log : List OverrideEntry) (e : OverrideEntry) :
    owedReplacements (log ++ [e]) = owedStep (owedReplacements log) e := by
  simp [owedReplacements]

@[simp]
theorem activeOverrides_snoc (log : List OverrideEntry) (e : OverrideEntry) :
    activeOverrides (log ++ [e]) = activeStep (activeOverrides log) e := by
  simp [activeOverrides]

/-- At most one override is active at any time, and nothing is owed when one is deactivated. -/
structure BalancedLog (log : List OverrideEntry) : Prop where
  single : ∀ pre post, log = pre ++ post → (activeOverrides pre).length ≤ 1
  released : ∀ pre index post, log = pre ++ .deactivated index :: post → owedReplacements pre = []

theorem BalancedLog.nil : BalancedLog [] := by
  constructor
  · intro pre post h
    rw [(List.append_eq_nil_iff.mp h.symm).1]
    exact Nat.zero_le _
  · intro pre index post h
    cases pre <;> cases h

variable {overrides : List (Option KeyOverride)} {e : OverrideEntry}

theorem BalancedLog.snoc {log : List OverrideEntry} (h : BalancedLog log)
    (hsingle : (activeStep (activeOverrides log) e).length ≤ 1)
    (hreleased : ∀ index, e = .deactivated index → owedReplacements log = []) : BalancedLog (log ++ [e]) := by
  constructor
  · intro pre post heq
    rcases List.eq_nil_or_concat post with rfl | ⟨post, e', rfl⟩
    · rw [List.append_nil] at heq
      rw [← heq, activeOverrides_snoc]
      exact hsingle
    · rw [List.concat_eq_append, ← List.append_assoc] at heq
      exact h.single pre post (List.append_inj' heq rfl).1
  · intro pre index post heq
    rcases List.eq_nil_or_concat post with rfl | ⟨post, e', rfl⟩
    · obtain ⟨rfl, he⟩ := List.append_inj' heq rfl
      exact hreleased index (List.singleton_injective he)
    · rw [List.concat_eq_append, ← List.cons_append, ← List.append_assoc] at heq
      exact h.released pre index post (List.append_inj' heq rfl).1

structure OverrideInv (s : OverrideState) : Prop where
  active : activeOverrides s.log = (s.activeOverride.map Prod.fst).toList
  idle : s.activeOverride = none →
    s.suppressedMods = 0 ∧ s.weakOverrideMods = 0 ∧ owedReplacements s.log = []
  deferred : s.deferredRegister ≠ 0 → s.deferredReplacement = true → ∃ index o,
    s.activeOverride = some (index, o) ∧ s.deferredRegister = clearModsFrom o.replacement ∧
      registrable o = true ∧ s.customAllowed = true
  owed : ∀ index o, s.activeOverride = some (index, o) → ∀ c ∈ owedReplacements s.log,
    c = modFreeReplacement8 o ∧ c ≠ 0 ∧ registrable o = true ∧ s.customAllowed = true
  log : BalancedLog s.log

theorem initial_overrideInv : OverrideInv .initial where
  active := rfl
  idle _ := ⟨rfl, rfl, rfl⟩
  deferred h := absurd rfl h
  owed _ _ h := by cases h
  log := .nil

def Preserves (s s' : OverrideState) : Prop := OverrideInv s → OverrideInv s'

theorem Preserves.refl (s : OverrideState) : Preserves s s := id

theorem Preserves.trans {s₁ s₂ s₃ : OverrideState} (h : Preserves s₁ s₂) (h' : Preserves s₂ s₃) :
    Preserves s₁ s₃ := h' ∘ h

/-- An entry that is neither about a replacement nor about which override is active. -/
def OverrideEntry.isPlain : OverrideEntry → Bool
  | .trigger _ | .sendKeyboardReport => true
  | _ => false

theorem OverrideEntry.isPlain.owed (h : e.isPlain = true) (owed : List Nat) : owedStep owed e = owed := by
  cases e with
  | trigger call => rfl
  | sendKeyboardReport => rfl
  | refused index => cases h
  | activated index => cases h
  | deactivated index => cases h
  | replacement call => cases h

theorem OverrideEntry.isPlain.active (h : e.isPlain = true) (active : List Nat) : activeStep active e = active := by
  cases e with
  | trigger call => rfl
  | sendKeyboardReport => rfl
  | refused index => cases h
  | activated index => cases h
  | deactivated index => cases h
  | replacement call => cases h

theorem OverrideInv.length_le {s : OverrideState} (h : OverrideInv s) : (activeOverrides s.log).length ≤ 1 := by
  rw [h.active]
  cases s.activeOverride <;> simp

theorem OverrideInv.write_plain {s : OverrideState} (h : OverrideInv s) (he : e.isPlain = true) :
    OverrideInv (s.write [e]) := by
  have howed : owedReplacements (s.log ++ [e]) = owedReplacements s.log := by
    rw [owedReplacements_snoc, OverrideEntry.isPlain.owed he]
  have hactive : activeOverrides (s.log ++ [e]) = activeOverrides s.log := by
    rw [activeOverrides_snoc, OverrideEntry.isPlain.active he]
  constructor
  · simpa [OverrideState.write, hactive] using h.active
  · simpa [OverrideState.write, howed] using h.idle
  · exact h.deferred
  · simpa [OverrideState.write, howed] using h.owed
  · refine h.log.snoc ?_ ?_
    · rw [OverrideEntry.isPlain.active he]
      exact h.length_le
    · intro index heq
      rw [heq] at he
      cases he

theorem scheduleDeferredRegister_fields (env : OverrideEnv) (keycode : Nat) (isReplacement : Bool)
    (s : OverrideState) :
    (scheduleDeferredRegister env keycode isReplacement s).log = s.log ∧
      (scheduleDeferredRegister env keycode isReplacement s).activeOverride = s.activeOverride ∧
      (scheduleDeferredRegister env keycode isReplacement s).suppressedMods = s.suppressedMods ∧
      (scheduleDeferredRegister env keycode isReplacement s).weakOverrideMods = s.weakOverrideMods ∧
      (scheduleDeferredRegister env keycode isReplacement s).customAllowed = s.customAllowed ∧
      (scheduleDeferredRegister env keycode isReplacement s).deferredRegister = keycode ∧
      (scheduleDeferredRegister env keycode isReplacement s).deferredReplacement = isReplacement := by
  rw [scheduleDeferredRegister]
  split <;> exact ⟨rfl, rfl, rfl, rfl, rfl, rfl, rfl⟩

theorem clearActiveOverride_none (env : OverrideEnv) (allowReregister : Bool) {s : OverrideState}
    (h : s.activeOverride = none) : clearActiveOverride env allowReregister s = s := by
  simp only [clearActiveOverride, h]

theorem clearActiveOverride_some (env : OverrideEnv) (allowReregister : Bool) {s : OverrideState} {index : Nat}
    {o : KeyOverride} (h : s.activeOverride = some (index, o)) :
    (clearActiveOverride env allowReregister s).activeOverride = none ∧
      (clearActiveOverride env allowReregister s).suppressedMods = 0 ∧
      (clearActiveOverride env allowReregister s).weakOverrideMods = 0 ∧
      ((clearActiveOverride env allowReregister s).deferredRegister ≠ 0 →
        (clearActiveOverride env allowReregister s).deferredReplacement = false) ∧
      (clearActiveOverride env allowReregister s).log =
        s.log ++ unregisterReplacement env index o s.customAllowed ++ [.sendKeyboardReport, .deactivated index] := by
  simp only [clearActiveOverride, reregisterTrigger, h]
  split
  · refine ⟨trivial, ?_, ?_, fun _ => ?_, ?_⟩
    · exact (scheduleDeferredRegister_fields ..).2.2.1
    · exact (scheduleDeferredRegister_fields ..).2.2.2.1
    · exact (scheduleDeferredRegister_fields ..).2.2.2.2.2.2
    · simp only [OverrideState.write, (scheduleDeferredRegister_fields ..).1]
  · exact ⟨trivial, rfl, rfl, fun hne => absurd rfl hne, rfl⟩

theorem clearActiveOverride_active (env : OverrideEnv) (allowReregister : Bool) (s : OverrideState) :
    (clearActiveOverride env allowReregister s).activeOverride = none := by
  cases h : s.activeOverride with
  | none => rw [clearActiveOverride_none env allowReregister h, h]
  | some a => exact (clearActiveOverride_some env allowReregister h).1

theorem unregisterReplacement_owed {env : OverrideEnv} {index : Nat} {o : KeyOverride} {customAllowed : Bool}
    {owed : List Nat}
    (howed : ∀ c ∈ owed, c = modFreeReplacement8 o ∧ c ≠ 0 ∧ registrable o = true ∧ customAllowed = true) :
    (unregisterReplacement env index o customAllowed).foldl owedStep owed = [] := by
  rw [unregisterReplacement]
  by_cases hun : unregistersReplacement env index o = true
  · have hfilter : owed.filter (· ∉ [modFreeReplacement8 o]) = [] := by
      rw [List.filter_eq_nil_iff]
      intro c hc
      simp [(howed c hc).1]
    rw [if_pos hun]
    split <;> simpa [owedStep, heldStep, ReportCall.down, ReportCall.up] using hfilter
  · rw [if_neg hun]
    split
    · rfl
    · rename_i hnot
      rw [List.foldl_nil, List.eq_nil_iff_forall_not_mem]
      intro c hc
      obtain ⟨hcode, hne, hreg, hallowed⟩ := howed c hc
      have hlt : modFreeReplacement8 o < safeRange :=
        Nat.lt_trans (Nat.mod_lt _ (by decide : 0 < 256)) (by decide)
      have hrefuses : o.customAction = true ∧ env.custom index false = false := by
        simp only [unregistersReplacement, decide_eq_true_eq, not_and] at hun
        have hcustom := hun (hcode ▸ hne) hlt
        rw [Classical.not_imp, Bool.not_eq_true] at hcustom
        exact hcustom
      exact hnot ⟨hreg, hallowed, hrefuses⟩

theorem unregisterReplacement_active (env : OverrideEnv) (index : Nat) (o : KeyOverride) (customAllowed : Bool)
    (active : List Nat) : (unregisterReplacement env index o customAllowed).foldl activeStep active = active := by
  rw [unregisterReplacement]
  split
  · split <;> rfl
  · split <;> rfl

theorem BalancedLog.append {log : List OverrideEntry} (h : BalancedLog log) : ∀ {entries : List OverrideEntry},
    (∀ e ∈ entries, ∀ index, e ≠ .activated index ∧ e ≠ .deactivated index) → BalancedLog (log ++ entries) := by
  intro entries
  induction entries generalizing log with
  | nil => simp [h]
  | cons e entries ih =>
    intro hentries
    have hfirst : BalancedLog (log ++ [e]) := by
      refine h.snoc ?_ fun index heq => absurd heq (hentries e (by simp) index).2
      have hlen := h.single log [] (List.append_nil _).symm
      cases e with
      | activated index => exact absurd rfl (hentries _ (by simp) index).1
      | deactivated index => exact absurd rfl (hentries _ (by simp) index).2
      | replacement call => exact hlen
      | trigger call => exact hlen
      | sendKeyboardReport => exact hlen
      | refused index => exact hlen
    have hrest := ih hfirst fun e' he' => hentries e' (List.mem_cons_of_mem _ he')
    rwa [List.append_assoc] at hrest

theorem unregisterReplacement_inert (env : OverrideEnv) (index : Nat) (o : KeyOverride) (customAllowed : Bool) :
    ∀ e ∈ unregisterReplacement env index o customAllowed, ∀ i, e ≠ .activated i ∧ e ≠ .deactivated i := by
  rw [unregisterReplacement]
  split
  · split <;> simp
  · split <;> simp

theorem clearActiveOverride_preserves (env : OverrideEnv) (allowReregister : Bool) (s : OverrideState) :
    Preserves s (clearActiveOverride env allowReregister s) := by
  intro h
  cases hactive : s.activeOverride with
  | none =>
    rw [clearActiveOverride_none env allowReregister hactive]
    exact h
  | some a =>
    obtain ⟨index, o⟩ := a
    obtain ⟨hnone, hsuppressed, hweak, hdeferred, hlog⟩ := clearActiveOverride_some env allowReregister hactive
    have howed : (owedReplacements (s.log ++ unregisterReplacement env index o s.customAllowed)) = [] := by
      rw [owedReplacements, List.foldl_append]
      exact unregisterReplacement_owed (h.owed index o hactive)
    have hactives : activeOverrides (s.log ++ unregisterReplacement env index o s.customAllowed) = [index] := by
      rw [activeOverrides, List.foldl_append, unregisterReplacement_active]
      exact h.active.trans (by rw [hactive]; rfl)
    have hbalanced := (h.log.append (unregisterReplacement_inert env index o s.customAllowed))
    have hsplit : s.log ++ unregisterReplacement env index o s.customAllowed ++
        [.sendKeyboardReport, .deactivated index] =
        s.log ++ unregisterReplacement env index o s.customAllowed ++ [.sendKeyboardReport] ++
          [.deactivated index] := by simp
    rw [hsplit] at hlog
    have hsent : BalancedLog (s.log ++ unregisterReplacement env index o s.customAllowed ++ [.sendKeyboardReport]) :=
      hbalanced.snoc (by rw [hactives]; exact Nat.le_refl _) (by simp)
    constructor
    · rw [hlog, hnone, activeOverrides_snoc, activeOverrides_snoc, hactives]
      simp [activeStep]
    · intro _
      refine ⟨hsuppressed, hweak, ?_⟩
      rw [hlog, owedReplacements_snoc, owedReplacements_snoc, howed]
      rfl
    · intro hne htrue
      rw [hdeferred hne] at htrue
      cases htrue
    · intro _ _ hsome
      rw [hnone] at hsome
      cases hsome
    · rw [hlog]
      refine hsent.snoc ?_ fun _ _ => ?_
      · rw [activeOverrides_snoc, hactives]
        simp [activeStep]
      · rw [owedReplacements_snoc, howed]
        rfl

theorem OverrideInv.write_replacement {s : OverrideState} (h : OverrideInv s) {index : Nat} {o : KeyOverride}
    (hactive : s.activeOverride = some (index, o)) (hreg : registrable o = true) (hallowed : s.customAllowed = true)
    {call : ReportCall} (hdown : ∀ c ∈ call.down, c = modFreeReplacement8 o ∧ c ≠ 0) :
    OverrideInv (s.write [.replacement call]) := by
  constructor
  · simpa [OverrideState.write, activeStep] using h.active
  · intro hnone
    rw [OverrideState.write, hactive] at hnone
    cases hnone
  · exact h.deferred
  · intro index' o' hsome c hc
    rw [show (s.write [.replacement call]).activeOverride = s.activeOverride from rfl, hactive] at hsome
    cases hsome
    simp only [OverrideState.write, owedReplacements_snoc, owedStep, heldStep, List.mem_append, List.mem_filter] at hc
    rcases hc with hc | hc
    · exact ⟨(hdown c hc).1, (hdown c hc).2, hreg, hallowed⟩
    · exact h.owed index o hactive c hc.1
  · exact h.log.append (by simp)

theorem mem_down_code {code : Nat} {c : Nat} (hc : c ∈ (if code = 0 then [] else [code])) : c = code ∧ c ≠ 0 := by
  split at hc
  · cases hc
  · rename_i hne
    rw [List.mem_singleton] at hc
    exact ⟨hc, hc ▸ hne⟩

theorem OverrideInv.markActive {s : OverrideState} (h : OverrideInv s) (hnone : s.activeOverride = none)
    (hdeferred : s.deferredRegister ≠ 0 → s.deferredReplacement = false) (env : OverrideEnv) (index : Nat)
    (o : KeyOverride) : OverrideInv (markActive env index o s) := by
  obtain ⟨-, -, howed⟩ := h.idle hnone
  have hactive := h.active
  rw [hnone] at hactive
  constructor
  · simp [Keys.markActive, activeStep, hactive]
  · intro hsome
    cases hsome
  · intro hne htrue
    exact absurd ((hdeferred hne).symm.trans htrue) Bool.false_ne_true
  · intro _ _ _ c hc
    simp [Keys.markActive, owedStep, heldStep, howed] at hc
  · refine h.log.snoc ?_ (by simp)
    rw [hactive]
    simp [activeStep]

theorem removeTrigger_active (o : KeyOverride) (triggerDown noTrigger : Bool) (s : OverrideState) :
    (removeTrigger o triggerDown noTrigger s).activeOverride = s.activeOverride ∧
      (removeTrigger o triggerDown noTrigger s).customAllowed = s.customAllowed := by
  rw [removeTrigger]
  split
  · split <;> exact ⟨rfl, rfl⟩
  · exact ⟨rfl, rfl⟩

theorem removeTrigger_preserves (o : KeyOverride) (triggerDown noTrigger : Bool) (s : OverrideState) :
    Preserves s (removeTrigger o triggerDown noTrigger s) := by
  rw [removeTrigger]
  split
  · split
    · exact fun h => h.write_plain rfl
    · exact fun h => h.write_plain rfl
  · exact .refl s

theorem isBasicKeycode_lt {code : Nat} (h : isBasicKeycode code = true) : code < 256 := by
  simp only [isBasicKeycode, decide_eq_true_eq] at h
  omega

theorem OverrideInv.deferred_of_none {s : OverrideState} (h : OverrideInv s) (hnone : s.activeOverride = none)
    (hne : s.deferredRegister ≠ 0) : s.deferredReplacement = false := by
  cases htrue : s.deferredReplacement with
  | false => rfl
  | true =>
    obtain ⟨_, _, hsome, -⟩ := h.deferred hne htrue
    rw [hnone] at hsome
    cases hsome

theorem OverrideInv.registerReplacement {s : OverrideState} (h : OverrideInv s) {index : Nat} {o : KeyOverride}
    {env : OverrideEnv} (hactive : s.activeOverride = some (index, o))
    (hallowed : s.customAllowed = decide (o.customAction = true → env.custom index true = true)) (isMod : Bool) :
    OverrideInv (registerReplacement env isMod index o s) := by
  simp only [Keys.registerReplacement]
  split
  · rename_i hregisters
    obtain ⟨hreg, hcustom⟩ := (Bool.and_eq_true _ _).mp hregisters
    rw [hcustom] at hallowed
    have hweak : OverrideInv { s with weakOverrideMods := extractModBits o.replacement } := by
      refine ⟨h.active, fun hnone => ?_, h.deferred, h.owed, h.log⟩
      rw [show s.activeOverride = none from hnone] at hactive
      cases hactive
    split
    · refine OverrideInv.write_plain ?_ rfl
      obtain ⟨hlog, hact, hsup, hwk, hcus, hreg', hrep⟩ := scheduleDeferredRegister_fields env
        (clearModsFrom o.replacement) true { s with weakOverrideMods := extractModBits o.replacement }
      constructor
      · rw [hlog, hact]
        exact hweak.active
      · rw [hlog, hact, hsup, hwk]
        exact hweak.idle
      · intro _ _
        exact ⟨index, o, by rw [hact]; exact hactive, hreg', hreg, by rw [hcus]; exact hallowed⟩
      · rw [hlog, hact, hcus]
        exact hweak.owed
      · rw [hlog]
        exact hweak.log
    · split
      · rename_i hbasic
        refine hweak.write_replacement hactive hreg hallowed fun c hc => ?_
        obtain ⟨hcode, hne⟩ := mem_down_code hc
        refine ⟨?_, hne⟩
        rw [hcode, modFreeReplacement8, Nat.mod_eq_of_lt (isBasicKeycode_lt hbasic)]
      · have hsent := hweak.write_plain (e := .sendKeyboardReport) rfl
        have hwritten := hsent.write_replacement hactive hreg hallowed
          (fun c hc => mem_down_code hc : ∀ c ∈ (ReportCall.registerCode (clearModsFrom o.replacement % 256)).down, _)
        simpa [OverrideState.write] using hwritten
  · exact h.write_plain rfl

theorem activateOverride_preserves (env : OverrideEnv) (keycode : Nat) (keyDown isMod : Bool) (index : Nat)
    (o : KeyOverride) (s : OverrideState) :
    Preserves s (activateOverride env keycode keyDown isMod index o s).2 := by
  have hnone := clearActiveOverride_active env false s
  simp only [activateOverride]
  refine (clearActiveOverride_preserves env false s).trans ?_
  generalize clearActiveOverride env false s = s₁ at hnone
  have hmark : Preserves s₁ (markActive env index o s₁) :=
    fun h => h.markActive hnone (h.deferred_of_none hnone) env index o
  refine hmark.trans ?_
  generalize (decide (o.trigger = keycode) && keyDown) = triggerDown
  generalize decide (o.trigger = 0) = noTrigger
  obtain ⟨hactive, hallowed⟩ := removeTrigger_active o triggerDown noTrigger (markActive env index o s₁)
  refine (removeTrigger_preserves o triggerDown noTrigger _).trans ?_
  exact fun h => h.registerReplacement hactive hallowed isMod

theorem keyOverrideTask_preserves (env : OverrideEnv) (s : OverrideState) :
    Preserves s (keyOverrideTask env s) := by
  simp only [keyOverrideTask]
  split
  · exact .refl s
  · rename_i hdeferred
    split
    · intro h
      cases hrep : s.deferredReplacement with
      | false =>
        have hwritten := h.write_plain (e := .trigger (.registerCode16 s.deferredRegister)) rfl
        exact ⟨hwritten.active, hwritten.idle, fun hne => absurd rfl hne, hwritten.owed, hwritten.log⟩
      | true =>
        obtain ⟨index, o, hactive, hcode, hreg, hallowed⟩ := h.deferred hdeferred hrep
        have hwritten := h.write_replacement hactive hreg hallowed
          (fun c hc => by
            obtain ⟨heq, hne⟩ := mem_down_code hc
            rw [hcode] at heq
            exact ⟨heq, hne⟩ : ∀ c ∈ (ReportCall.registerCode16 s.deferredRegister).down, _)
        exact ⟨hwritten.active, hwritten.idle, fun hne => absurd rfl hne, hwritten.owed, hwritten.log⟩
    · exact .refl s

theorem trackLastKey_preserves (env : OverrideEnv) (keycode : Nat) (keyDown : Bool) (s : OverrideState) :
    Preserves s (trackLastKey env keycode keyDown s) := by
  rw [trackLastKey]
  split
  · exact fun h => ⟨h.active, h.idle, fun hne => absurd rfl hne, h.owed, h.log⟩
  · split
    · exact fun h => ⟨h.active, h.idle, fun hne => absurd rfl hne, h.owed, h.log⟩
    · exact .refl s

theorem checkActiveOverride_preserves (env : OverrideEnv) (keycode : Nat) (keyDown isMod : Bool)
    (effectiveMods : UInt8) (s : OverrideState) :
    Preserves s (checkActiveOverride env keycode keyDown isMod effectiveMods s) := by
  simp only [checkActiveOverride]
  split
  · exact .refl s
  · split
    · split
      · exact clearActiveOverride_preserves env true s
      · exact .refl s
    · rename_i index o hactive _
      generalize (decide (keycode = o.trigger) && !keyDown) = lifted
      have hlifted : Preserves s (if lifted = true then { s with activeOverrideTriggerIsDown := false } else s) := by
        split
        · exact fun h => ⟨h.active, h.idle, h.deferred, h.owed, h.log⟩
        · exact .refl s
      split
      · exact hlifted.trans (clearActiveOverride_preserves env false _)
      · exact hlifted

theorem keyOverrideOff_preserves (env : OverrideEnv) (s : OverrideState) : Preserves s (keyOverrideOff env s) := by
  have hoff : Preserves s { s with enabled := false } :=
    fun h => ⟨h.active, h.idle, h.deferred, h.owed, h.log⟩
  exact hoff.trans (clearActiveOverride_preserves env false _)

theorem keyOverrideOn_preserves (s : OverrideState) : Preserves s (keyOverrideOn s) :=
  fun h => ⟨h.active, h.idle, h.deferred, h.owed, h.log⟩

theorem keyOverrideToggle_preserves (env : OverrideEnv) (s : OverrideState) :
    Preserves s (keyOverrideToggle env s) := by
  rw [keyOverrideToggle]
  split
  · exact keyOverrideOff_preserves env s
  · exact keyOverrideOn_preserves s

theorem tryActivatingOverride_preserves {env : OverrideEnv} {keycode : Nat} {keyDown isMod : Bool}
    {activeMods : UInt8} {s s' : OverrideState} {sendKeyAction activated : Bool}
    (h : tryActivatingOverride overrides env keycode keyDown isMod activeMods s = some (sendKeyAction, activated, s')) :
    Preserves s s' := by
  rw [tryActivatingOverride] at h
  split at h
  · cases h
    exact activateOverride_preserves _ _ _ _ _ _ _
  · cases h
    exact .refl _
  · cases h

theorem processKeyOverride_preserves {env : OverrideEnv} {keycode : Nat} {keyDown : Bool} {s s' : OverrideState}
    {answer : Bool} (h : processKeyOverride overrides env keycode keyDown s = some (answer, s')) :
    Preserves s s' := by
  simp only [processKeyOverride] at h
  split at h
  · cases h
    exact keyOverrideToggle_preserves env s
  split at h
  · cases h
    exact keyOverrideOn_preserves s
  split at h
  · cases h
    exact keyOverrideOff_preserves env s
  split at h
  · cases h
    exact .refl _
  have htrack : Preserves s
      (if isModifierKeycode keycode = true then s else trackLastKey env keycode keyDown s) := by
    split
    · exact .refl s
    · exact trackLastKey_preserves env keycode keyDown s
  split at h
  · obtain ⟨⟨sendKeyAction, activated, s₁⟩, htry, heq⟩ := Option.map_eq_some_iff.mp h
    cases heq
    refine htrack.trans ((tryActivatingOverride_preserves htry).trans ?_)
    have hsend : Preserves s₁ (if sendKeyAction = true then s₁ else s₁.write [.sendKeyboardReport]) := by
      split
      · exact .refl s₁
      · exact fun h => h.write_plain rfl
    refine hsend.trans ?_
    cases activated with
    | true => exact .refl _
    | false => exact checkActiveOverride_preserves _ _ _ _ _ _
  · cases h
    exact htrack.trans (checkActiveOverride_preserves _ _ _ _ _ _)

theorem OverrideStep.exec_preserves {step : OverrideStep} {s s' : OverrideState}
    (h : step.exec overrides s = some s') : Preserves s s' := by
  cases step with
  | key env keycode keyDown =>
    obtain ⟨⟨answer, s₁⟩, hproc, rfl⟩ := Option.map_eq_some_iff.mp h
    exact processKeyOverride_preserves hproc
  | task env =>
    cases h
    exact keyOverrideTask_preserves env s
  | on =>
    cases h
    exact keyOverrideOn_preserves s
  | off env =>
    cases h
    exact keyOverrideOff_preserves env s
  | toggle env =>
    cases h
    exact keyOverrideToggle_preserves env s

theorem runOverrides_preserves {steps : List OverrideStep} :
    ∀ {s s' : OverrideState}, runOverrides overrides s steps = some s' → Preserves s s' := by
  induction steps with
  | nil =>
    intro s s' h
    cases h
    exact .refl s
  | cons step steps ih =>
    intro s s' h
    obtain ⟨s₁, hstep, hrest⟩ := Option.bind_eq_some_iff.mp h
    exact (OverrideStep.exec_preserves hstep).trans (ih hrest)

/-- In every run from start-up at most one override is active at any time, every replacement that an override
registered is unregistered, or refused to be, when it is deactivated, and while none is active nothing is
owed, suppressed or added. -/
theorem key_overrides_balanced {overrides : List (Option KeyOverride)} {steps : List OverrideStep}
    {s : OverrideState} (h : runOverrides overrides .initial steps = some s) :
    (∀ pre post, s.log = pre ++ post → (activeOverrides pre).length ≤ 1) ∧
    (∀ pre index post, s.log = pre ++ .deactivated index :: post → owedReplacements pre = []) ∧
    activeOverrides s.log = (s.activeOverride.map Prod.fst).toList ∧
    (s.activeOverride = none → s.suppressedMods = 0 ∧ s.weakOverrideMods = 0 ∧ owedReplacements s.log = []) := by
  have hinv := runOverrides_preserves h initial_overrideInv
  exact ⟨hinv.log.single, hinv.log.released, hinv.active, hinv.idle⟩

def shiftBackspace (customAction : Bool) : KeyOverride where
  trigger := 0x2A
  triggerMods := 0x22
  layers := 0xFFFF
  negativeModMask := 0
  suppressedMods := 0x22
  replacement := 0x4C
  activationTriggerDown := true
  activationRequiredModDown := true
  activationNegativeModUp := true
  oneMod := false
  noReregisterTrigger := false
  noUnregisterOnOtherKeyDown := false
  customAction := customAction
  enabled := none

/-- Left shift is down; a custom action answers whether the override was activated. -/
def shiftDown : OverrideEnv := ⟨1000, 2, 0, fun _ => true, fun _ activated => activated⟩

def backspaceTap (customAction : Bool) : Option OverrideState :=
  runOverrides [some (shiftBackspace customAction)] .initial
    [.key shiftDown 0x2A true, .task shiftDown, .key shiftDown 0x2A false]

theorem backspaceTap_isSome : (backspaceTap false).isSome = true := by decide +kernel

theorem key_overrides_balanced_backspaceTap :
    ((backspaceTap false).get backspaceTap_isSome).activeOverride.isNone = true ∧
      BalancedLog ((backspaceTap false).get backspaceTap_isSome).log := by
  have h := key_overrides_balanced (Option.some_get backspaceTap_isSome).symm
  exact ⟨by decide +kernel, h.1, h.2.1⟩

theorem backspaceTap_log : (backspaceTap true).map (fun s => s.log) = some
    [.activated 0, .replacement (.addKey 0x4C), .sendKeyboardReport, .refused 0, .sendKeyboardReport,
      .deactivated 0] := by
  decide +kernel

/-- The custom action lets the replacement be registered, and refuses to let it be unregistered. -/
theorem refused_replacement_stays :
    ¬ ∀ overrides steps s, runOverrides overrides .initial steps = some s →
      ∀ pre index post, s.log = pre ++ .deactivated index :: post → heldReplacements pre = [] := by
  intro h
  obtain ⟨s, hrun, hlog⟩ := Option.map_eq_some_iff.mp backspaceTap_log
  have howed := h _ _ s hrun
    [.activated 0, .replacement (.addKey 0x4C), .sendKeyboardReport, .refused 0, .sendKeyboardReport] 0 [] hlog
  revert howed
  decide

end Keys
end VialQmk
