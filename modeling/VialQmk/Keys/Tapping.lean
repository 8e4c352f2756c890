import VialQmk.Keys.ProcessAction

/-!
# Keys.Tapping

The tap/hold state machine of `action_tapping.c`, without `CHORDAL_HOLD` and `RETRO_SHIFT`: the
tapping key, the waiting buffer, `process_tapping` and the loop of `action_tapping_process`.

The rest of the firmware is an environment with a state of its own: it answers what kind of key a
record is and which terms apply, and `process_record` changes it. `process_record` may also call
`action_exec` again before it returns (a macro or a tap dance with a keycode above `QK_MODS_MAX`), so
what it does is a tree of such calls, and `action_tapping_process` is defined over the function that
nested calls run.

The log of a state records what was given to `action_tapping_process` and in which state it came in,
what was passed to `process_record`, and the two accidents: a waiting buffer that overflowed, and a
nested call made while a record was on its way.
-/

namespace VialQmk
namespace Keys

inductive EventType where
  | tick | key | encoderCw | encoderCcw | combo | dipSwitchOn | dipSwitchOff
  deriving DecidableEq, Repr

structure KeyEvent where
  key : KeyPos
  time : UInt16
  type : EventType
  pressed : Bool
  deriving DecidableEq, Repr

structure Tap where
  interrupted : Bool
  count : Nat
  deriving DecidableEq, Repr

structure Record where
  event : KeyEvent
  tap : Tap
  keycode : Nat
  deriving DecidableEq, Repr

def Record.zero : Record := ⟨⟨⟨0, 0⟩, 0, .tick, false⟩, ⟨false, 0⟩, 0⟩

namespace Record

/-- A record as it comes in: of an event, with a keycode of its own if it is a combo's. -/
def raw (event : KeyEvent) (keycode : Nat) : Record := ⟨event, ⟨false, 0⟩, keycode⟩

def IsNoEvent (r : Record) : Prop := r.event.type = .tick
deriving Decidable

def IsTapping (r keyp : Record) : Prop := r.event.key = keyp.event.key ∧ r.keycode = keyp.keycode
deriving Decidable

/-- The tapping key is a press that is not settled as a tap or a hold. -/
def Unsettled (r : Record) : Prop :=
  ¬ r.IsNoEvent ∧ r.event.pressed = true ∧ r.tap.count = 0
deriving Decidable

def Settled (r : Record) : Prop :=
  ¬ r.IsNoEvent ∧ r.event.pressed = true ∧ r.tap.count ≠ 0
deriving Decidable

def Released (r : Record) : Prop := ¬ r.IsNoEvent ∧ r.event.pressed = false
deriving Decidable

def setCount (r : Record) (count : Nat) : Record := { r with tap := { r.tap with count := count } }

def setInterrupted (r : Record) : Record := { r with tap := { r.tap with interrupted := true } }

end Record

/-- What `process_record` may do to the record it is passed: nothing, `record->event.pressed = false`
for a press that ends a one-shot layer, or `*record = (keyrecord_t){}` for the release of a swap-hands
tap. -/
inductive RecordChange where
  | keep | released | reset
  deriving DecidableEq, Repr

def RecordChange.apply : RecordChange → Record → Record
  | .keep, r => r
  | .released, r => { r with event := { r.event with pressed := false } }
  | .reset, r => if r.event.pressed then r else .zero

/-- The course of a call of `process_record`: it returns, or it calls `action_exec` for a further
event and goes on in the state behind that call. -/
inductive Proc (σ : Type) where
  | done (change : RecordChange) (s : σ)
  | exec (event : KeyEvent) (keycode : Nat) (s : σ) (next : σ → Proc σ)

structure TapEnv (σ : Type) where
  /-- `is_tap_record`, of a record with an event. -/
  isTapRecord : σ → Record → Bool
  /-- `GET_TAPPING_TERM` of the tapping key. -/
  tappingTerm : σ → Record → Nat
  /-- `GET_QUICK_TAP_TERM` of the tapping key. -/
  quickTapTerm : σ → Record → Nat
  /-- `TAP_GET_PERMISSIVE_HOLD` of the tapping key. -/
  permissiveHold : σ → Record → Bool
  /-- `TAP_GET_HOLD_ON_OTHER_KEY_PRESS` of the tapping key. -/
  holdOnOtherKeyPress : σ → Record → Bool
  /-- `layer_switch_get_action`. -/
  layerSwitchGetAction : σ → KeyPos → Nat
  /-- `process_record_tap_hint`. -/
  processRecordTapHint : σ → Record → σ
  /-- `process_record`. -/
  processRecord : Record → σ → Proc σ
  /-- `clear_keyboard`. -/
  clearKeyboard : σ → σ

/-- An entry for a record that comes in also holds the tapping key and the waiting buffer it finds, and
whether the tapping key keeps a press back. -/
inductive LogEntry where
  | given (r tappingKey : Record) (front : List Record) (keeps : Bool)
  | passed (r : Record)
  | synthesized (r : Record)
  | overflow
  | reentered
  deriving DecidableEq, Repr

structure TapState (σ : Type) where
  tappingKey : Record
  waitingBuffer : List Record
  env : σ
  log : List LogEntry

def waitingBufferSize : Nat := 8

namespace TapState

variable {σ : Type} (s : TapState σ)

def setTapping (r : Record) : TapState σ := { s with tappingKey := r }

def write (e : LogEntry) : TapState σ := { s with log := s.log ++ [e] }

end TapState

section Machine

variable {σ : Type} (E : TapEnv σ)

/-- The function that runs a nested call of `action_tapping_process`. -/
abbrev Nested (σ : Type) := KeyEvent → Nat → TapState σ → Option (TapState σ)

/-- The rest of a call of `process_record`. A nested call is on record unless the call was the last
thing to do for a record that just came in (`straight`). -/
def runProc (nested : Nested σ) (straight : Bool) :
    Proc σ → TapState σ → Option (RecordChange × TapState σ)
  | .done change env, s => some (change, { s with env := env })
  | .exec event keycode env next, s =>
    let s := { s with env := env }
    let s := if straight then s else s.write .reentered
    (nested event keycode s).bind fun s => runProc nested straight (next s.env) s

def passRecord (nested : Nested σ) (straight : Bool) (keyp : Record) (s : TapState σ) :
    Option (Record × TapState σ) :=
  (runProc nested straight (E.processRecord keyp s.env) (s.write (.passed keyp))).map fun (change, s) =>
    (change.apply keyp, s)

def passTappingKey (nested : Nested σ) (s : TapState σ) : Option (TapState σ) :=
  (runProc nested false (E.processRecord s.tappingKey s.env) (s.write (.passed s.tappingKey))).map
    fun (change, s) => s.setTapping (change.apply s.tappingKey)

/-- `process_record` of the release event made up for a tapping key with a count above 1. -/
def passSynthesized (nested : Nested σ) (time : UInt16) (s : TapState σ) : Option (TapState σ) :=
  let r := { s.tappingKey with event := { s.tappingKey.event with time := time, pressed := false } }
  (runProc nested false (E.processRecord r s.env) (s.write (.synthesized r))).map fun (_, s) => s

def WithinTappingTerm (s : TapState σ) (e : KeyEvent) : Prop :=
  (e.time - s.tappingKey.event.time).toNat < E.tappingTerm s.env s.tappingKey
deriving Decidable

def WithinQuickTapTerm (s : TapState σ) (e : KeyEvent) : Prop :=
  (e.time - s.tappingKey.event.time).toNat < E.quickTapTerm s.env s.tappingKey
deriving Decidable

/-- A press at `e` is not processed in front of the waiting buffer: the tapping key is not settled, or
it is a release behind its term. -/
def KeepsBack (s : TapState σ) (e : KeyEvent) : Prop :=
  s.tappingKey.Unsettled ∨ (s.tappingKey.Released ∧ ¬ WithinTappingTerm E s e)
deriving Decidable

def waitingBufferTyped (s : TapState σ) (e : KeyEvent) : Bool :=
  s.waitingBuffer.any fun r => decide (e.key = r.event.key) && (e.pressed != r.event.pressed)

def IsScanned (s : TapState σ) (r : Record) : Prop :=
  ¬ r.IsNoEvent ∧ r.event.key = s.tappingKey.event.key ∧ r.event.pressed = false ∧
    WithinTappingTerm E s r.event
deriving Decidable

def waitingBufferScanTap (nested : Nested σ) (s : TapState σ) : Option (TapState σ) :=
  if s.tappingKey.tap.count > 0 ∨ s.tappingKey.event.pressed = false then some s
  else
    match s.waitingBuffer.findIdx? fun r => decide (IsScanned E s r) with
    | none => some s
    | some i =>
      passTappingKey E nested
        { s with
          tappingKey := s.tappingKey.setCount 1
          waitingBuffer := s.waitingBuffer.modify i fun r => r.setCount 1 }

/-- A release that waits for the end of the tapping, because its key holds a modifier or a layer. -/
def IsRetained (code tapCount : Nat) : Prop :=
  let key := ActionCode.keyCode code
  if ActionCode.kindId code = actMods ∨ ActionCode.kindId code = actRmods then
    (ActionCode.keyMods code ≠ 0 ∧ key = 0) ∨ IsModifierKeycode key
  else if ActionCode.kindId code = actLmodsTap ∨ ActionCode.kindId code = actRmodsTap then
    (ActionCode.keyMods code ≠ 0 ∧ tapCount = 0) ∨ IsModifierKeycode key
  else if ActionCode.kindId code = actLayerTap ∨ ActionCode.kindId code = actLayerTapExt then
    key < opTapToggle ∨ key = opOnOff ∨ key = opOffOn ∨ key = opSetClear
  else False

instance (code tapCount : Nat) : Decidable (IsRetained code tapCount) := by
  unfold IsRetained
  infer_instance

/-- The tapping key is pressed and not settled, within its term. -/
def processUnsettled (nested : Nested σ) (live : Bool) (keyp : Record) (s : TapState σ) :
    Option (Bool × Record × TapState σ) :=
  let event := keyp.event
  if s.tappingKey.IsTapping keyp ∧ event.pressed = false then
    (passTappingKey E nested (s.setTapping (s.tappingKey.setCount 1))).map fun s =>
      (false, { keyp with tap := s.tappingKey.tap }, s)
  else if event.pressed = false ∧ waitingBufferTyped s event ∧ E.permissiveHold s.env s.tappingKey then
    (passTappingKey E nested s).map fun s => (false, keyp, s.setTapping .zero)
  else if event.pressed = false ∧ ¬ waitingBufferTyped s event then
    if IsRetained (E.layerSwitchGetAction s.env event.key) keyp.tap.count then some (false, keyp, s)
    else (passRecord E nested live keyp s).map fun (keyp, s) => (true, keyp, s)
  else if event.pressed = true then
    let s := s.setTapping s.tappingKey.setInterrupted
    if E.holdOnOtherKeyPress s.env s.tappingKey then
      (passTappingKey E nested s).map fun s => (false, keyp, s.setTapping .zero)
    else some (false, keyp, s)
  else some (false, keyp, s)

/-- A new tap-hold key while the tapping key, settled as a tap, is down. -/
def startNewTap (nested : Nested σ) (keyp : Record) (s : TapState σ) :
    Option (Bool × Record × TapState σ) :=
  let released :=
    if s.tappingKey.tap.count > 1 then passSynthesized E nested keyp.event.time s else some s
  released.bind fun s =>
    (waitingBufferScanTap E nested (s.setTapping keyp)).map fun s => (true, keyp, s)

/-- The tapping key is pressed and settled as a tap, within its term or behind it (`within`). -/
def processSettled (nested : Nested σ) (live within : Bool) (keyp : Record) (s : TapState σ) :
    Option (Bool × Record × TapState σ) :=
  let event := keyp.event
  if s.tappingKey.IsTapping keyp ∧ event.pressed = false then
    (passRecord E nested false { keyp with tap := s.tappingKey.tap } s).map fun (keyp, s) =>
      (true, keyp, s.setTapping (if within then keyp else .zero))
  else if E.isTapRecord s.env keyp ∧ event.pressed = true then startNewTap E nested keyp s
  else (passRecord E nested live keyp s).map fun (keyp, s) => (true, keyp, s)

def processReleased (nested : Nested σ) (live : Bool) (keyp : Record) (s : TapState σ) :
    Option (Bool × Record × TapState σ) :=
  let event := keyp.event
  if event.pressed = true then
    if s.tappingKey.IsTapping keyp then
      if WithinQuickTapTerm E s event ∧ s.tappingKey.tap.interrupted = false ∧
          s.tappingKey.tap.count > 0 then
        let count := s.tappingKey.tap.count
        let keyp := { keyp with tap := s.tappingKey.tap }
        let keyp := if count < 15 then keyp.setCount (count + 1) else keyp
        (passRecord E nested false keyp s).map fun (keyp, s) => (true, keyp, s.setTapping keyp)
      else some (true, keyp, s.setTapping keyp)
    else if E.isTapRecord s.env keyp then
      (waitingBufferScanTap E nested (s.setTapping keyp)).map fun s => (true, keyp, s)
    else
      (passRecord E nested live keyp (s.setTapping s.tappingKey.setInterrupted)).map fun (keyp, s) =>
        (true, keyp, s)
  else (passRecord E nested live keyp s).map fun (keyp, s) => (true, keyp, s)

/-- `process_tapping(keyp)`: whether the event is done with, the record behind the call, and the
state. `live` says that the record came in just now and is not a record of the waiting buffer. -/
def processTapping (nested : Nested σ) (live : Bool) (keyp : Record) (s : TapState σ) :
    Option (Bool × Record × TapState σ) :=
  let event := keyp.event
  if s.tappingKey.IsNoEvent then
    if keyp.IsNoEvent then some (true, keyp, s)
    else if event.pressed = true ∧ E.isTapRecord s.env keyp then
      let s := { s with tappingKey := keyp, env := E.processRecordTapHint s.env keyp }
      (waitingBufferScanTap E nested s).map fun s => (true, keyp, s)
    else (passRecord E nested live keyp s).map fun (keyp, s) => (true, keyp, s)
  else if s.tappingKey.event.pressed = true then
    if WithinTappingTerm E s event then
      if keyp.IsNoEvent then some (true, keyp, s)
      else if s.tappingKey.tap.count = 0 then processUnsettled E nested live keyp s
      else processSettled E nested live true keyp s
    else if s.tappingKey.tap.count = 0 then
      (passTappingKey E nested s).map fun s => (false, keyp, s.setTapping .zero)
    else if keyp.IsNoEvent then some (true, keyp, s)
    else processSettled E nested live false keyp s
  else if WithinTappingTerm E s event then
    if keyp.IsNoEvent then some (true, keyp, s)
    else processReleased E nested live keyp s
  else some (false, keyp, s.setTapping .zero)

def waitingBufferEnq (keyp : Record) (s : TapState σ) : Option (TapState σ) :=
  if keyp.IsNoEvent then some s
  else if s.waitingBuffer.length + 1 = waitingBufferSize then none
  else some { s with waitingBuffer := s.waitingBuffer ++ [keyp] }

/-- The loop of `action_tapping_process` over the waiting buffer, for at most `n` rounds. A round that
does not finish its record leaves it in the buffer, as `process_tapping` changed it. -/
def processWaitingBuffer (nested : Nested σ) : Nat → TapState σ → Option (TapState σ)
  | 0, s => if s.waitingBuffer = [] then some s else none
  | n + 1, s =>
    match s.waitingBuffer with
    | [] => some s
    | keyp :: _ =>
      (processTapping E nested false keyp s).bind fun (finished, keyp, s) =>
        if finished then processWaitingBuffer nested n { s with waitingBuffer := s.waitingBuffer.tail }
        else some { s with waitingBuffer := s.waitingBuffer.set 0 keyp }

/-- A record that is not finished waits in the buffer, or clears everything if the buffer is full. -/
def keepRecord (keyp : Record) (s : TapState σ) : TapState σ :=
  match waitingBufferEnq keyp s with
  | some s => s
  | none =>
    { s with
      tappingKey := .zero
      waitingBuffer := []
      env := E.clearKeyboard s.env
      log := s.log ++ [.overflow] }

def actionTappingProcess (nested : Nested σ) (rounds : Nat) (keyp : Record) (s : TapState σ) :
    Option (TapState σ) :=
  let keeps := decide (KeepsBack E s keyp.event)
  let s := if keyp.IsNoEvent then s
    else s.write (.given keyp s.tappingKey s.waitingBuffer keeps)
  (processTapping E nested true keyp s).bind fun (finished, keyp, s) =>
    processWaitingBuffer E nested rounds (if finished then s else keepRecord E keyp s)

/-- `action_tapping_process` with nested calls up to the depth `fuel`. -/
def execTapping : Nat → Nested σ
  | 0 => fun _ _ _ => none
  | fuel + 1 => fun event keycode =>
    actionTappingProcess E (execTapping fuel) (waitingBufferSize + fuel) (.raw event keycode)

/-- A step of a run: an event comes in, or the environment changes by itself. -/
inductive TapStep (σ : Type) where
  | event (e : KeyEvent) (keycode : Nat)
  | environment (change : σ → σ)

def TapStep.exec (fuel : Nat) (s : TapState σ) : TapStep σ → Option (TapState σ)
  | .event e keycode => execTapping E fuel e keycode s
  | .environment change => some { s with env := change s.env }

def runTapping (fuel : Nat) (s : TapState σ) (steps : List (TapStep σ)) : Option (TapState σ) :=
  steps.foldlM (TapStep.exec E fuel) s

def TapState.initial (env : σ) : TapState σ := ⟨.zero, [], env, []⟩

end Machine

/-- A row of keys, those at the columns `tapHold` tap-hold keys, with nothing behind `process_record`. -/
def TapEnv.plain (tapHold : List Nat) (term quickTerm : Nat) : TapEnv Unit where
  isTapRecord _ r := decide (r.event.key.col ∈ tapHold)
  tappingTerm _ _ := term
  quickTapTerm _ _ := quickTerm
  permissiveHold _ _ := false
  holdOnOtherKeyPress _ _ := false
  layerSwitchGetAction _ _ := 0
  processRecordTapHint s _ := s
  processRecord _ s := .done .keep s
  clearKeyboard s := s

def TapStep.key {σ : Type} (col : Nat) (time : UInt16) (pressed : Bool) : TapStep σ :=
  .event ⟨⟨0, col⟩, time, .key, pressed⟩ 0

def TapStep.tick {σ : Type} (time : UInt16) : TapStep σ := .event ⟨⟨0, 0⟩, time, .tick, false⟩ 0

theorem run_decides {σ : Type} {E : TapEnv σ} {fuel : Nat} {s : TapState σ}
    {steps : List (TapStep σ)} (P : TapState σ → Prop) [DecidablePred P]
    (h : ((runTapping E fuel s steps).any fun s => decide (P s)) = true) :
    ∃ s', runTapping E fuel s steps = some s' ∧ P s' := by
  obtain ⟨s', hs, hp⟩ := (Option.any_eq_true _ _).mp h
  exact ⟨s', hs, of_decide_eq_true hp⟩

end Keys
end VialQmk
