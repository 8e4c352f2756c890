import Mathlib.Data.List.Basic

/-!
# Keys.KeyOverride

`process_key_override.c`: a key with certain modifiers down is replaced by another keycode.

The list of overrides is fixed. What an event finds elsewhere (the time, the modifiers in effect, the layer
of the key, the flags that `enabled` points at, what a custom action answers) is given with it. Calls to the
keyboard report are written to the log, those for a replacement apart from those for a trigger, with the
points where an override became and ceased to be the active one.
-/

namespace VialQmk
namespace Keys

def qkKeyOverrideToggle : Nat := 0x7C5D
def qkKeyOverrideOn : Nat := 0x7C5E
def qkKeyOverrideOff : Nat := 0x7C5F
def safeRange : Nat := 0x7E40

/-- `key_override_t`, with `enabled` the address of a flag. The custom action is known by its override. -/
structure KeyOverride where
  trigger : Nat
  triggerMods : UInt8
  layers : Nat
  negativeModMask : UInt8
  suppressedMods : UInt8
  replacement : Nat
  activationTriggerDown : Bool
  activationRequiredModDown : Bool
  activationNegativeModUp : Bool
  oneMod : Bool
  noReregisterTrigger : Bool
  noUnregisterOnOtherKeyDown : Bool
  customAction : Bool
  enabled : Option Nat

structure OverrideEnv where
  now : UInt32
  mods : UInt8
  layer : Nat
  flag : Nat → Bool
  /-- What the custom action of an override answers when it is told whether the override was activated. -/
  custom : Nat → Bool → Bool

inductive ReportCall where
  | addKey (code : Nat)
  | registerCode (code : Nat)
  | registerCode16 (code : Nat)
  | delKey (code : Nat)
  | unregisterCode (code : Nat)
  deriving DecidableEq, Repr

inductive OverrideEntry where
  | activated (index : Nat)
  | deactivated (index : Nat)
  | replacement (call : ReportCall)
  | trigger (call : ReportCall)
  | sendKeyboardReport
  /-- A custom action has refused to unregister a replacement that it had let be registered. -/
  | refused (index : Nat)
  deriving DecidableEq, Repr

structure OverrideState where
  activeOverride : Option (Nat × KeyOverride)
  activeOverrideTriggerIsDown : Bool
  lastKeyDown : Nat
  lastKeyDownTime : UInt32
  deferReferenceTime : UInt32
  deferDelay : UInt32
  deferredRegister : Nat
  enabled : Bool
  suppressedMods : UInt8
  weakOverrideMods : UInt8
  /-- Whether the deferred key is the replacement of the active override. -/
  deferredReplacement : Bool
  /-- What the custom action of the active override answered when it was activated. -/
  customAllowed : Bool
  log : List OverrideEntry

def OverrideState.initial : OverrideState :=
  ⟨none, false, 0, 0, 0, 0, 0, true, 0, 0, false, true, []⟩

def OverrideState.write (s : OverrideState) (entries : List OverrideEntry) : OverrideState :=
  { s with log := s.log ++ entries }

def isModifierKeycode (code : Nat) : Bool := 0xE0 ≤ code ∧ code ≤ 0xE7

def isBasicKeycode (code : Nat) : Bool := 0x04 ≤ code ∧ code ≤ 0xA4

def isQkMods (code : Nat) : Bool := 0x0100 ≤ code ∧ code ≤ 0x1FFF

def clearModsFrom (keycode : Nat) : Nat := if isQkMods keycode = true then keycode &&& 0xE0FF else keycode

def extractModBits (code : Nat) : UInt8 :=
  if isQkMods code = true then
    let side : UInt8 := if code &&& 0x1000 ≠ 0 then 16 else 1
    (if code &&& 0x0100 ≠ 0 then side else 0) ||| (if code &&& 0x0200 ≠ 0 then side * 2 else 0) |||
      (if code &&& 0x0400 ≠ 0 then side * 4 else 0) ||| (if code &&& 0x0800 ≠ 0 then side * 8 else 0)
  else 0

def overrideModBit (keycode : Nat) : UInt8 := 1 <<< UInt8.ofNat (keycode % 8)

def registrable (o : KeyOverride) : Bool :=
  clearModsFrom o.replacement ≠ 0 ∧ clearModsFrom o.replacement < safeRange

def keyOverrideRepeatDelay : UInt32 := 500

def scheduleDeferredRegister (env : OverrideEnv) (keycode : Nat) (isReplacement : Bool) (s : OverrideState) :
    OverrideState :=
  if env.now - s.lastKeyDownTime < keyOverrideRepeatDelay then
    { s with
      deferReferenceTime := s.lastKeyDownTime
      deferDelay := keyOverrideRepeatDelay
      deferredRegister := keycode
      deferredReplacement := isReplacement }
  else
    { s with
      deferReferenceTime := env.now
      deferDelay := 50
      deferredRegister := keycode
      deferredReplacement := isReplacement }

def modFreeReplacement8 (o : KeyOverride) : Nat := clearModsFrom o.replacement % 256

/-- Whether the replacement is to be unregistered, with the answer of the custom action. -/
def unregistersReplacement (env : OverrideEnv) (index : Nat) (o : KeyOverride) : Bool :=
  modFreeReplacement8 o ≠ 0 ∧ modFreeReplacement8 o < safeRange ∧
    (o.customAction = true → env.custom index false = true)

def unregisterReplacement (env : OverrideEnv) (index : Nat) (o : KeyOverride) (customAllowed : Bool) :
    List OverrideEntry :=
  if unregistersReplacement env index o = true then
    if isBasicKeycode (modFreeReplacement8 o) = true then [.replacement (.delKey (modFreeReplacement8 o))]
    else [.sendKeyboardReport, .replacement (.unregisterCode (modFreeReplacement8 o))]
  else if registrable o = true ∧ customAllowed = true ∧ o.customAction = true ∧ env.custom index false = false then
    [.refused index]
  else []

/-- The trigger comes back behind the deactivation if it is still down. -/
def reregisterTrigger (env : OverrideEnv) (allowReregister : Bool) (o : KeyOverride) (s : OverrideState) :
    OverrideState :=
  if allowReregister = true ∧ o.noReregisterTrigger = false ∧ s.activeOverrideTriggerIsDown = true ∧
      o.trigger ≠ 0 ∧ o.trigger < safeRange then
    scheduleDeferredRegister env o.trigger false s
  else s

def clearActiveOverride (env : OverrideEnv) (allowReregister : Bool) (s : OverrideState) : OverrideState :=
  match s.activeOverride with
  | none => s
  | some (index, o) =>
    let s := { s with deferredRegister := 0, suppressedMods := 0, weakOverrideMods := 0 }
    let s := s.write (unregisterReplacement env index o s.customAllowed)
    let s := reregisterTrigger env allowReregister o s
    let s := s.write [.sendKeyboardReport, .deactivated index]
    { s with activeOverride := none, activeOverrideTriggerIsDown := false }

def keyOverrideOn (s : OverrideState) : OverrideState := { s with enabled := true }

def keyOverrideOff (env : OverrideEnv) (s : OverrideState) : OverrideState :=
  clearActiveOverride env false { s with enabled := false }

def keyOverrideToggle (env : OverrideEnv) (s : OverrideState) : OverrideState :=
  if s.enabled = true then keyOverrideOff env s else keyOverrideOn s

def keyOverrideMatchesActiveModifiers (o : KeyOverride) (mods : UInt8) : Bool :=
  if (o.negativeModMask &&& mods) ≠ 0 then false
  else if o.triggerMods = 0 then true
  else if o.oneMod = true then decide (o.triggerMods &&& mods ≠ 0)
  else
    let oneSidedRequiredMods : UInt8 := (o.triggerMods &&& (0x0F : UInt8)) ||| (o.triggerMods >>> 4)
    let activeRequiredMods : UInt8 := o.triggerMods &&& mods
    let oneSidedActiveRequiredMods : UInt8 := (activeRequiredMods &&& (0x0F : UInt8)) ||| (activeRequiredMods >>> 4)
    decide (oneSidedActiveRequiredMods = oneSidedRequiredMods)

def checkActivationEvent (o : KeyOverride) (keyDown isMod : Bool) : Bool :=
  let noOption := !o.activationTriggerDown && !o.activationRequiredModDown && !o.activationNegativeModUp
  if isMod = true then
    if keyDown = true then o.activationRequiredModDown || noOption else o.activationNegativeModUp || noOption
  else if keyDown = true then o.activationTriggerDown || noOption
  else false

/-- The checks of `try_activating_override` on one override. -/
def shouldActivate (env : OverrideEnv) (s : OverrideState) (keycode : Nat) (keyDown isMod : Bool)
    (activeMods : UInt8) (index : Nat) (o : KeyOverride) : Bool :=
  if activeMods = 0 ∧ o.triggerMods ≠ 0 then false
  else if o.layers.testBit env.layer = false then false
  else if checkActivationEvent o keyDown isMod = false then false
  else if o.trigger = keycode ∧ keyDown = false then false
  else if s.activeOverride.map Prod.fst = some index then false
  else if o.enabled.any (fun address => !env.flag address) = true then false
  else if keyOverrideMatchesActiveModifiers o activeMods = false then false
  else o.trigger = 0 ∨ (o.trigger = keycode ∧ keyDown = true) ∨ s.lastKeyDown = o.trigger

inductive OverrideSearch where
  | found (index : Nat) (o : KeyOverride)
  | absent
  | endless

/-- The loop over the overrides, up to the end of the list or a `NULL`. Its counter is a `uint8_t`: past
index 255 it begins again, and does not end. -/
def findOverride (check : Nat → KeyOverride → Bool) : Nat → List (Option KeyOverride) → OverrideSearch
  | index, [] => if 256 ≤ index then .endless else .absent
  | _, none :: _ => .absent
  | index, some o :: rest => if check index o = true then .found index o else findOverride check (index + 1) rest

def registersReplacement (env : OverrideEnv) (index : Nat) (o : KeyOverride) : Bool :=
  registrable o && decide (o.customAction = true → env.custom index true = true)

def markActive (env : OverrideEnv) (index : Nat) (o : KeyOverride) (s : OverrideState) : OverrideState :=
  { s with
    activeOverride := some (index, o)
    activeOverrideTriggerIsDown := true
    suppressedMods := o.suppressedMods
    customAllowed := decide (o.customAction = true → env.custom index true = true)
    log := s.log ++ [.activated index] }

def removeTrigger (o : KeyOverride) (triggerDown noTrigger : Bool) (s : OverrideState) : OverrideState :=
  if triggerDown = false ∧ noTrigger = false then
    if isBasicKeycode o.trigger = true then s.write [.trigger (.delKey o.trigger)]
    else s.write [.trigger (.unregisterCode (o.trigger % 256))]
  else s

def registerReplacement (env : OverrideEnv) (isMod : Bool) (index : Nat) (o : KeyOverride) (s : OverrideState) :
    OverrideState :=
  let modFreeReplacement := clearModsFrom o.replacement
  if registersReplacement env index o = true then
    let s := { s with weakOverrideMods := extractModBits o.replacement }
    if isMod = true then (scheduleDeferredRegister env modFreeReplacement true s).write [.sendKeyboardReport]
    else if isBasicKeycode modFreeReplacement = true then s.write [.replacement (.addKey modFreeReplacement)]
    else s.write [.sendKeyboardReport, .replacement (.registerCode (modFreeReplacement % 256))]
  else s.write [.sendKeyboardReport]

/-- The rest of `try_activating_override` for the override that was found, and its result. -/
def activateOverride (env : OverrideEnv) (keycode : Nat) (keyDown isMod : Bool) (index : Nat) (o : KeyOverride)
    (s : OverrideState) : Bool × OverrideState :=
  let triggerDown := decide (o.trigger = keycode) && keyDown
  let noTrigger := decide (o.trigger = 0)
  let s := markActive env index o (clearActiveOverride env false s)
  let s := removeTrigger o triggerDown noTrigger s
  (!triggerDown, registerReplacement env isMod index o s)

/-- `try_activating_override`: whether the key action is sent, and whether an override was activated. -/
def tryActivatingOverride (overrides : List (Option KeyOverride)) (env : OverrideEnv) (keycode : Nat)
    (keyDown isMod : Bool) (activeMods : UInt8) (s : OverrideState) : Option (Bool × Bool × OverrideState) :=
  match findOverride (shouldActivate env s keycode keyDown isMod activeMods) 0 (overrides.take 256) with
  | .found index o =>
    let (sendKeyAction, s) := activateOverride env keycode keyDown isMod index o s
    some (sendKeyAction, true, s)
  | .absent => some (true, false, s)
  | .endless => none

def keyOverrideTask (env : OverrideEnv) (s : OverrideState) : OverrideState :=
  if s.deferredRegister = 0 then s
  else if env.now - s.deferReferenceTime ≥ s.deferDelay then
    let s := s.write
      [if s.deferredReplacement = true then .replacement (.registerCode16 s.deferredRegister)
        else .trigger (.registerCode16 s.deferredRegister)]
    { s with deferredRegister := 0, deferReferenceTime := 0, deferDelay := 0 }
  else s

/-- The last key that went down, kept by a key that is not a modifier. -/
def trackLastKey (env : OverrideEnv) (keycode : Nat) (keyDown : Bool) (s : OverrideState) : OverrideState :=
  if keyDown = true then
    { s with lastKeyDown := keycode, lastKeyDownTime := env.now, deferredRegister := 0 }
  else if keycode = s.lastKeyDown then
    { s with lastKeyDown := 0, lastKeyDownTime := 0, deferredRegister := 0 }
  else s

/-- The end of `process_key_override`: whether the active override stays, when none was activated. -/
def checkActiveOverride (env : OverrideEnv) (keycode : Nat) (keyDown isMod : Bool) (effectiveMods : UInt8)
    (s : OverrideState) : OverrideState :=
  match s.activeOverride with
  | none => s
  | some (_, o) =>
    if isMod = true then
      if keyOverrideMatchesActiveModifiers o effectiveMods = false then clearActiveOverride env true s else s
    else
      let lifted := decide (keycode = o.trigger) && !keyDown
      let s := if lifted = true then { s with activeOverrideTriggerIsDown := false } else s
      if lifted = true ∨ (keyDown = true ∧ o.noUnregisterOnOtherKeyDown = false) then
        clearActiveOverride env false s
      else s

def processKeyOverride (overrides : List (Option KeyOverride)) (env : OverrideEnv) (keycode : Nat) (keyDown : Bool)
    (s : OverrideState) : Option (Bool × OverrideState) :=
  let isMod := isModifierKeycode keycode
  if keyDown = true ∧ keycode = qkKeyOverrideToggle then some (false, keyOverrideToggle env s)
  else if keyDown = true ∧ keycode = qkKeyOverrideOn then some (false, keyOverrideOn s)
  else if keyDown = true ∧ keycode = qkKeyOverrideOff then some (false, keyOverrideOff env s)
  else if s.enabled = false then some (true, s)
  else
    let effectiveMods :=
      if isMod = true then
        if keyDown = true then env.mods ||| overrideModBit keycode else env.mods &&& ~~~ overrideModBit keycode
      else env.mods
    let s := if isMod = true then s else trackLastKey env keycode keyDown s
    if isMod = true ∨ keyDown = true then
      (tryActivatingOverride overrides env keycode keyDown isMod effectiveMods s).map
        fun (sendKeyAction, activated, s) =>
          let s := if sendKeyAction = true then s else s.write [.sendKeyboardReport]
          (sendKeyAction,
            if activated = true then s else checkActiveOverride env keycode keyDown isMod effectiveMods s)
    else some (true, checkActiveOverride env keycode keyDown isMod effectiveMods s)

/-- An event of a key, a round of `key_override_task`, or one of the functions called from elsewhere. -/
inductive OverrideStep where
  | key (env : OverrideEnv) (keycode : Nat) (keyDown : Bool)
  | task (env : OverrideEnv)
  | on
  | off (env : OverrideEnv)
  | toggle (env : OverrideEnv)

def OverrideStep.exec (overrides : List (Option KeyOverride)) (s : OverrideState) :
    OverrideStep → Option OverrideState
  | .key env keycode keyDown => (processKeyOverride overrides env keycode keyDown s).map Prod.snd
  | .task env => some (keyOverrideTask env s)
  | .on => some (keyOverrideOn s)
  | .off env => some (keyOverrideOff env s)
  | .toggle env => some (keyOverrideToggle env s)

def runOverrides (overrides : List (Option KeyOverride)) (s : OverrideState) (steps : List OverrideStep) :
    Option OverrideState :=
  steps.foldlM (OverrideStep.exec overrides) s

end Keys
end VialQmk
