import VialQmk.Eeprom.Entries
import VialQmk.Lib.Nested

/-!
# Keys.TapDance

Tap dance: `quantum/process_keycode/process_tap_dance.c`, with the callbacks of `quantum/vial.c`.

A callback presses and releases keycodes. Up to `QK_MODS_MAX` they take effect at once; for any other,
`action_exec` is called for an event at the magic matrix position. The tapping code keeps records back or passes
them on to `process_record`, in order. So `process_record` is called again before the callback has returned.

* `processRecord`: the pipeline for one record, as far as tap dances and macros go.
* `actionExec`: an event comes in, and the tapping code passes on some of what waits.
* `Step`, `run`: keys, time, and `tap_dance_task`.
-/

namespace VialQmk
namespace Keys
namespace TapDance

open Eeprom Lib

def qkModsMax : UInt16 := 0x1FFF
def qkTapDance : UInt16 := 0x5700
def qkTapDanceMax : UInt16 := 0x57FF
def qkMacro : UInt16 := 0x7700
def qkMacroMax : UInt16 := 0x777F

def IsTapDance (keycode : UInt16) : Prop := qkTapDance ≤ keycode ∧ keycode ≤ qkTapDanceMax
deriving Decidable

def qkTapDanceGetIndex (keycode : UInt16) : Nat := (keycode &&& 0xFF).toNat

/-- The values of `dance_state`; it is 0 while the dance has no outcome. -/
inductive Outcome where
  | none | singleTap | singleHold | doubleTap | doubleHold | doubleSingleTap | moreTaps
  deriving DecidableEq, Repr

structure DanceState where
  count : UInt8
  pressed : Bool
  finished : Bool
  interrupted : Bool
  deriving DecidableEq, Repr

namespace DanceState

def zero : DanceState := ⟨0, false, false, false⟩

variable (t : DanceState)

def setCount (count : UInt8) : DanceState := { t with count := count }

def setPressed (pressed : Bool) : DanceState := { t with pressed := pressed }

def setFinished : DanceState := { t with finished := true }

def setInterrupted : DanceState := { t with interrupted := true }

@[simp]
theorem setPressed_finished (b : Bool) : (t.setPressed b).finished = t.finished := rfl

@[simp]
theorem setPressed_count (b : Bool) : (t.setPressed b).count = t.count := rfl

@[simp]
theorem setInterrupted_finished : t.setInterrupted.finished = t.finished := rfl

@[simp]
theorem setInterrupted_pressed : t.setInterrupted.pressed = t.pressed := rfl

@[simp]
theorem setInterrupted_count : t.setInterrupted.count = t.count := rfl

end DanceState

structure DanceMods where
  weakMods : UInt8
  oneshotMods : UInt8
  deriving DecidableEq, Repr

structure Mods where
  real : UInt8
  weak : UInt8
  oneshot : UInt8
  deriving DecidableEq, Repr

def Mods.forDance (m : Mods) : DanceMods := ⟨m.real ||| m.weak, m.oneshot⟩

/-- Where a record comes from: a key of the matrix, a macro, or a callback of a dance. -/
inductive Source where
  | matrix (pos : Nat)
  | macroPlay
  | dance (index : Nat) (held : Bool)
  deriving DecidableEq, Repr

namespace Source

def magic : Source → Bool
  | .matrix _ => false
  | .macroPlay | .dance _ _ => true

/-- `on_dance_finished` presses it last, or `on_dance_reset` releases it. -/
def held : Source → Bool
  | .matrix _ | .macroPlay => false
  | .dance _ held => held

end Source

/-- `keyrecord_t`. The keycode is the one that `vial_keycode_down` or `vial_keycode_up` was called with. -/
structure KeyRecord where
  source : Source
  keycode : UInt16
  pressed : Bool
  deriving DecidableEq, Repr

/-- What calls that do not wait for each other can do to a dance. -/
inductive Slip where
  /-- A callback of a dance is called before `on_dance_finished` or `on_dance_reset` of the dance has returned. -/
  | reentered
  /-- A press that `on_dance_finished` issued ends a dance. -/
  | ended
  /-- A record of the magic matrix position is looked up behind a call for another keycode. -/
  | lost
  /-- `on_dance_finished` goes on with the `td_entry` of another dance. -/
  | overwritten
  /-- A tap of a dance that has finished replaces the modifiers that are to be taken off. -/
  | replaced
  deriving DecidableEq, Repr

inductive Event where
  /-- `vial_keycode_down` or `vial_keycode_up` is called. -/
  | issued (r : KeyRecord)
  | processed (r : KeyRecord) (keycode : UInt16)
  /-- `process_tap_dance_action_on_dance_finished` adds modifiers, and `on_dance_finished` is called next. -/
  | finished (index : Nat) (mods : DanceMods)
  /-- `process_tap_dance_action_on_reset` takes modifiers off, and is done. -/
  | reset (index : Nat) (mods : DanceMods)
  /-- `clear_weak_mods` -/
  | weakModsCleared
  | slip (x : Slip)
  deriving DecidableEq, Repr

structure Board where
  activeTd : UInt16
  lastTapTime : UInt16
  now : UInt16
  /-- `tap_dance_actions[index].state` -/
  action : Nat → DanceState
  /-- `tap_dance_actions[index].state` too -/
  mods : Nat → DanceMods
  danceState : Nat → Outcome
  tdEntry : VialTapDanceEntry
  magicKeycodeOverride : UInt16
  /-- What the tapping code keeps back. -/
  waiting : List KeyRecord
  /-- `on_dance_finished` or `on_dance_reset` of the dance has not returned. -/
  running : Nat → Bool
  log : List Event

structure DanceEnv where
  /-- The entries in the EEPROM, `VIAL_TAP_DANCE_ENTRIES` of them. -/
  entries : List VialTapDanceEntry
  /-- The keycode of a key in the layers that are on after what was processed, or in its cached layer. -/
  keymap : List Event → Nat → Bool → UInt16
  /-- The modifiers of the keyboard behind what was processed, and what dances added and took off. -/
  mods : List Event → Mods
  /-- How many of the records that wait the tapping code passes on when an event comes in. -/
  passes : List Event → List KeyRecord → Nat
  /-- The calls of `vial_keycode_down` and `vial_keycode_up` in a macro. -/
  macroCalls : UInt8 → List (UInt16 × Bool)

namespace Board

variable (s : Board)

def write (e : Event) : Board := { s with log := s.log ++ [e] }

def slipIf (p : Prop) [Decidable p] (x : Slip) : Board := if p then s.write (.slip x) else s

def setAction (index : Nat) (t : DanceState) : Board := { s with action := Function.update s.action index t }

def setMods (index : Nat) (m : DanceMods) : Board := { s with mods := Function.update s.mods index m }

def setDanceState (index : Nat) (st : Outcome) : Board :=
  { s with danceState := Function.update s.danceState index st }

def wait (r : KeyRecord) : Board := { s with waiting := s.waiting ++ [r] }

def setWaiting (waiting : List KeyRecord) : Board := { s with waiting := waiting }

def stamp : Board := { s with lastTapTime := s.now }

def setRunning (index : Nat) (b : Bool) : Board := { s with running := Function.update s.running index b }

variable {i j : Nat} (t : DanceState) (st : Outcome) (b : Bool)

@[simp]
theorem setAction_self : (s.setAction i t).action i = t := Function.update_self ..

@[simp]
theorem setMods_self (m : DanceMods) : (s.setMods i m).mods i = m := Function.update_self ..

@[simp]
theorem setDanceState_self : (s.setDanceState i st).danceState i = st := Function.update_self ..

@[simp]
theorem setRunning_self : (s.setRunning i b).running i = b := Function.update_self ..

theorem setAction_of_ne (h : i ≠ j) : (s.setAction j t).action i = s.action i := Function.update_of_ne h ..

theorem setMods_of_ne (m : DanceMods) (h : i ≠ j) : (s.setMods j m).mods i = s.mods i := Function.update_of_ne h ..

theorem setDanceState_of_ne (h : i ≠ j) : (s.setDanceState j st).danceState i = s.danceState i :=
  Function.update_of_ne h ..

theorem setRunning_of_ne (h : i ≠ j) : (s.setRunning j b).running i = s.running i := Function.update_of_ne h ..

end Board

/-- The call of `action_exec` for a record of the magic matrix position. -/
abbrev Exec := Call KeyRecord Board

section Callbacks

variable (env : DanceEnv) (exec : Exec)

def vialKeycode (source : Source) (keycode : UInt16) (pressed : Bool) (s : Board) : Option Board :=
  let r : KeyRecord := ⟨source, keycode, pressed⟩
  let s := { s with magicKeycodeOverride := keycode }.write (.issued r)
  if keycode ≤ qkModsMax then some (s.write (.processed r keycode)) else exec r s

def vialKeycodeDown (source : Source) (keycode : UInt16) (s : Board) : Option Board :=
  vialKeycode exec source keycode true s

def vialKeycodeUp (source : Source) (keycode : UInt16) (s : Board) : Option Board :=
  vialKeycode exec source keycode false s

def vialKeycodeTap (source : Source) (keycode : UInt16) (s : Board) : Option Board :=
  (vialKeycodeDown exec source keycode s).bind (vialKeycodeUp exec source keycode)

def danceStep (t : DanceState) : Outcome :=
  if t.count = 1 then
    if t.interrupted ∨ ¬ t.pressed then .singleTap else .singleHold
  else if t.count = 2 then
    if t.interrupted then .doubleSingleTap
    else if t.pressed then .doubleHold
    else .doubleTap
  else .moreTaps

def onDance (index : Nat) (s : Board) : Option Board :=
  match env.entries[index]? with
  | none => some s
  | some td =>
    let s := { s with tdEntry := td }
    let count := (s.action index).count
    if td.onTap ≠ 0 then
      if count = 3 then
        ((vialKeycodeTap exec (.dance index false) td.onTap s).bind
          (vialKeycodeTap exec (.dance index false) td.onTap)).bind
          (vialKeycodeTap exec (.dance index false) td.onTap)
      else if count > 3 then vialKeycodeTap exec (.dance index false) td.onTap s
      else some s
    else some s

/-- `vial_keycode_tap(td_entry.on_tap)`, and behind it a press that is looked up in `td_entry` again. -/
def tapThenDown (index : Nat) (next : VialTapDanceEntry → UInt16) (s : Board) : Option Board :=
  (vialKeycodeTap exec (.dance index false) s.tdEntry.onTap s).bind fun t =>
    let t := t.slipIf (t.tdEntry ≠ s.tdEntry) .overwritten
    vialKeycodeDown exec (.dance index true) (next t.tdEntry) t

def onDanceFinished (index : Nat) (s : Board) : Option Board :=
  match env.entries[index]? with
  | none => some s
  | some td =>
    let down := vialKeycodeDown exec (.dance index true)
    let st := danceStep (s.action index)
    let s := { s with tdEntry := td }.setDanceState index st
    match st with
    | .singleTap => if td.onTap ≠ 0 then down td.onTap s else some s
    | .singleHold =>
      if td.onHold ≠ 0 then down td.onHold s
      else if td.onTap ≠ 0 then down td.onTap s
      else some s
    | .doubleTap =>
      if td.onDoubleTap ≠ 0 then down td.onDoubleTap s
      else if td.onTap ≠ 0 then tapThenDown exec index (·.onTap) s
      else some s
    | .doubleHold =>
      if td.onTapHold ≠ 0 then down td.onTapHold s
      else if td.onTap ≠ 0 then
        tapThenDown exec index (fun td => if td.onHold ≠ 0 then td.onHold else td.onTap) s
      else if td.onHold ≠ 0 then down td.onHold s
      else some s
    | .doubleSingleTap => if td.onTap ≠ 0 then tapThenDown exec index (·.onTap) s else some s
    | .moreTaps | .none => some s

def onDanceReset (index : Nat) (s : Board) : Option Board :=
  match env.entries[index]? with
  | none => some s
  | some td =>
    let up := vialKeycodeUp exec (.dance index true)
    let st := s.danceState index
    let s := ({ s with tdEntry := td }.setAction index ((s.action index).setCount 0)).setDanceState index .none
    match st with
    | .singleTap => if td.onTap ≠ 0 then up td.onTap s else some s
    | .singleHold =>
      if td.onHold ≠ 0 then up td.onHold s
      else if td.onTap ≠ 0 then up td.onTap s
      else some s
    | .doubleTap =>
      if td.onDoubleTap ≠ 0 then up td.onDoubleTap s
      else if td.onTap ≠ 0 then up td.onTap s
      else some s
    | .doubleHold =>
      if td.onTapHold ≠ 0 then up td.onTapHold s
      else if td.onTap ≠ 0 then
        if td.onHold ≠ 0 then up td.onHold s else up td.onTap s
      else if td.onHold ≠ 0 then up td.onHold s
      else some s
    | .doubleSingleTap => if td.onTap ≠ 0 then up td.onTap s else some s
    | .moreTaps | .none => some s

end Callbacks

section Pipeline

variable (env : DanceEnv) (exec : Exec)

/-- A callback of the dance, on record as running until it returns. -/
def callback (index : Nat) (f : Board → Option Board) (s : Board) : Option Board :=
  (f (s.setRunning index true)).map fun t => t.setRunning index (s.running index)

def processTapDanceActionOnEachTap (index : Nat) (s : Board) : Option Board :=
  let m := env.mods s.log
  let s := s.slipIf ((s.action index).finished = true ∧ (s.mods index).oneshotMods &&& m.real &&& ~~~m.oneshot ≠ 0)
    .replaced
  let s := s.setAction index ((s.action index).setCount ((s.action index).count + 1))
  onDance env exec index (s.setMods index m.forDance)

def clearAction (index : Nat) (s : Board) : Board :=
  ((s.write (.reset index (s.mods index))).setAction index .zero).setMods index ⟨0, 0⟩

def processTapDanceActionOnReset (index : Nat) (s : Board) : Option Board :=
  let s := s.slipIf (s.running index = true ∧ s.danceState index ≠ .none) .reentered
  (callback index (onDanceReset env exec index) s).map (clearAction index)

/-- The first part of `process_tap_dance_action_on_dance_finished`, for a dance that has not finished. -/
def finishDance (index : Nat) (s : Board) : Option Board :=
  let s := s.slipIf (s.running index = true) .reentered
  let s := s.setAction index (s.action index).setFinished
  callback index (onDanceFinished env exec index) (s.write (.finished index (s.mods index)))

def processTapDanceActionOnDanceFinished (index : Nat) (s : Board) : Option Board :=
  (if (s.action index).finished then some s else finishDance env exec index s).bind fun s =>
    let s := { s with activeTd := 0 }
    if (s.action index).pressed then some s else processTapDanceActionOnReset env exec index s

def getRecordKeycode (r : KeyRecord) (s : Board) : UInt16 :=
  match r.source with
  | .matrix pos => env.keymap s.log pos r.pressed
  | _ => s.magicKeycodeOverride

def preprocessTapDance (keycode : UInt16) (r : KeyRecord) (s : Board) : Option (Bool × Board) :=
  if r.pressed = false then some (false, s)
  else if s.activeTd = 0 ∨ keycode = s.activeTd then some (false, s)
  else
    let index := qkTapDanceGetIndex s.activeTd
    let s := s.slipIf (r.source.held = true ∧
      ¬ ((s.action index).finished = true ∧ (s.action index).pressed = true)) .ended
    let s := s.setAction index (s.action index).setInterrupted
    (processTapDanceActionOnDanceFinished env exec index s).map fun s => (true, s.write .weakModsCleared)

def processRecordVial (keycode : UInt16) (r : KeyRecord) (s : Board) : Option Board :=
  if r.pressed = false ∧ IsTapDance keycode then
    let index := (keycode - qkTapDance).toNat
    match env.entries[index]? with
    | none => some s
    | some td =>
      let s := { s with tdEntry := td }
      let t := s.action index
      if (t.count = 1 ∧ td.onTap ≠ 0 ∧ td.onHold ≠ 0 ∧ td.onDoubleTap = 0 ∧ td.onTapHold = 0)
          ∨ (t.count = 2 ∧ td.onDoubleTap ≠ 0) then
        processTapDanceActionOnDanceFinished env exec index (s.setAction index (t.setPressed false))
      else some s
  else some s

def tapDancePress (keycode : UInt16) (s : Board) : Option Board :=
  let index := qkTapDanceGetIndex keycode
  let s := s.setAction index ((s.action index).setPressed true)
  (processTapDanceActionOnEachTap env exec index s.stamp).map fun s =>
    { s with activeTd := if (s.action index).finished then 0 else keycode }

def tapDanceRelease (keycode : UInt16) (s : Board) : Option Board :=
  let index := qkTapDanceGetIndex keycode
  let s := s.setAction index ((s.action index).setPressed false)
  if (s.action index).finished then
    (processTapDanceActionOnReset env exec index s).map fun s =>
      if s.activeTd = keycode then { s with activeTd := 0 } else s
  else some s

def processTapDance (keycode : UInt16) (r : KeyRecord) (s : Board) : Option Board :=
  if IsTapDance keycode ∧ qkTapDanceGetIndex keycode < env.entries.length then
    if r.pressed then tapDancePress env exec keycode s else tapDanceRelease env exec keycode s
  else some s

def sendMacro (calls : List (UInt16 × Bool)) (s : Board) : Option Board :=
  calls.foldlM (fun s call => vialKeycode exec .macroPlay call.1 call.2 s) s

/-- What comes behind `preprocess_tap_dance`. `process_record_via` sends a macro, and then nothing else is done. -/
def processKeycode (keycode : UInt16) (r : KeyRecord) (s : Board) : Option Board :=
  if r.pressed = true ∧ qkMacro ≤ keycode ∧ keycode ≤ qkMacroMax then
    sendMacro exec (env.macroCalls (keycode - qkMacro).toUInt8) s
  else (processRecordVial env exec keycode r s).bind (processTapDance env exec keycode r)

def processRecord (r : KeyRecord) (s : Board) : Option Board :=
  (preprocessTapDance env exec (getRecordKeycode env r s) r s).bind fun (again, t) =>
    let keycode := if again then getRecordKeycode env r t else getRecordKeycode env r s
    let t := t.slipIf (r.source.magic = true ∧ keycode ≠ r.keycode) .lost
    processKeycode env exec keycode r (t.write (.processed r keycode))

def tapDanceTask (s : Board) : Option Board :=
  let index := qkTapDanceGetIndex s.activeTd
  let term := (env.entries[index]?.map (·.customTappingTerm)).getD 0
  if s.activeTd = 0 ∨ s.now - s.lastTapTime ≤ term then some s
  else if (s.action index).interrupted then some s
  else processTapDanceActionOnDanceFinished env exec index s

def passOn : Nat → Board → Option Board
  | 0, s => some s
  | n + 1, s =>
    match s.waiting with
    | [] => some s
    | r :: rest => (processRecord env exec r (s.setWaiting rest)).bind (passOn n)

def actionExecBody (r : KeyRecord) (s : Board) : Option Board :=
  let s := s.wait r
  passOn env exec (env.passes s.log s.waiting) s

end Pipeline

def actionExec (env : DanceEnv) : Nat → Exec := tie (actionExecBody env)

inductive Step where
  /-- The event of a key comes in. -/
  | key (pos : Nat) (pressed : Bool)
  /-- The event of a key that the tapping code hands on past what waits. -/
  | record (pos : Nat) (pressed : Bool)
  /-- The tapping code passes on what waits. -/
  | pass (n : Nat)
  | task
  | elapse (ms : UInt16)

def Step.exec (env : DanceEnv) (depth : Nat) (s : Board) : Step → Option Board
  | .key pos pressed => actionExec env depth ⟨.matrix pos, 0, pressed⟩ s
  | .record pos pressed => processRecord env (actionExec env depth) ⟨.matrix pos, 0, pressed⟩ s
  | .pass n => passOn env (actionExec env depth) n s
  | .task => tapDanceTask env (actionExec env depth) s
  | .elapse ms => some { s with now := s.now + ms }

def run (env : DanceEnv) (depth : Nat) (s : Board) (steps : List Step) : Option Board :=
  steps.foldlM (Step.exec env depth) s

def Board.initial : Board where
  activeTd := 0
  lastTapTime := 0
  now := 0
  action _ := .zero
  mods _ := ⟨0, 0⟩
  danceState _ := .none
  tdEntry := default
  magicKeycodeOverride := 0
  waiting := []
  running _ := false
  log := []

end TapDance
end Keys
end VialQmk
