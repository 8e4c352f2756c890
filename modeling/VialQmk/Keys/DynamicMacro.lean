import Mathlib.Data.List.DropRight
import Mathlib.Logic.Function.Basic
import VialQmk.Keys.Tapping

/-!
# Keys.DynamicMacro

`process_dynamic_macro.c`: two macros recorded into one buffer from its two ends.

A pointer into `macro_buffer` is an integer index, so that one past either end is a value like any
other. `process_record` and the user hooks are an environment with a state of its own. While a macro is
played, `process_record` is handed the cells of the buffer themselves, may change them, and comes back
to `process_dynamic_macro` with the keycode it looks up: what it does is a tree of such calls.

The log of a state records every key as it comes to `process_dynamic_macro`, before anything is done with
it, the cells that are written, what each playback passed on, and the two accidents of a playback:
`process_record` changed the cell it was handed, or stored a key in a cell that was still to be played.
-/

namespace VialQmk
namespace Keys

inductive MacroSlot where
  | one | two
  deriving DecidableEq, Repr

def MacroSlot.other : MacroSlot → MacroSlot
  | .one => .two
  | .two => .one

def MacroSlot.direction : MacroSlot → Int
  | .one => 1
  | .two => -1

def qkDynamicMacroRecordStart1 : Nat := 0x7C53
def qkDynamicMacroRecordStart2 : Nat := 0x7C54
def qkDynamicMacroRecordStop : Nat := 0x7C55
def qkDynamicMacroPlay1 : Nat := 0x7C56
def qkDynamicMacroPlay2 : Nat := 0x7C57

def recordStartSlot (keycode : Nat) : Option MacroSlot :=
  if keycode = qkDynamicMacroRecordStart1 then some .one
  else if keycode = qkDynamicMacroRecordStart2 then some .two
  else none

def playSlot (keycode : Nat) : Option MacroSlot :=
  if keycode = qkDynamicMacroPlay1 then some .one
  else if keycode = qkDynamicMacroPlay2 then some .two
  else none

/-- The course of `process_record` with a cell of the buffer: it calls `process_dynamic_macro` for a
key and goes on with the answer, or returns, having changed the cell in a way. -/
inductive MacroProc (σ : Type) where
  | done (change : Record → Record) (env : σ)
  | call (keycode : Nat) (record : Record) (env : σ) (next : Bool → σ → MacroProc σ)

structure MacroEnv (σ : Type) where
  processRecord : Record → σ → MacroProc σ
  /-- `dynamic_macro_valid_key_kb`. -/
  validKey : σ → Nat → Record → Bool
  /-- `dynamic_macro_record_start_kb`, `clear_keyboard` and `layer_clear`. -/
  recordStart : MacroSlot → σ → σ
  /-- `dynamic_macro_record_key_kb`. -/
  recordKey : MacroSlot → Record → σ → σ
  /-- `dynamic_macro_record_end_kb`. -/
  recordEnd : MacroSlot → σ → σ
  /-- `clear_keyboard` and `layer_clear`. -/
  playStart : MacroSlot → σ → σ
  /-- `clear_keyboard`, `layer_state_set` back to what it was before, `dynamic_macro_play_kb`. -/
  playEnd : MacroSlot → σ → σ → σ

structure DynamicMacroConfig where
  /-- `DYNAMIC_MACRO_SIZE`. -/
  size : Nat
  /-- `DYNAMIC_MACRO_NO_NESTING`. -/
  noNesting : Bool

/-- A key is logged with what `dynamic_macro_valid_key_kb` says of it, and a playback at its end, with the
length of the log at its beginning. -/
inductive MacroEntry where
  | key (keycode : Nat) (record : Record) (valid : Bool)
  | stop
  | stored (cell : Int)
  | played (slot : MacroSlot) (start : Nat) (records : List Record)
  | changed (slot : MacroSlot)
  | overtaken (slot : MacroSlot)
  deriving DecidableEq, Repr

structure MacroState (σ : Type) where
  macroBuffer : Int → Record
  macroEnd : Int
  rMacroEnd : Int
  macroPointer : Int
  /-- `macro_id`; no slot is 0. -/
  macroId : Option MacroSlot
  env : σ
  log : List MacroEntry

namespace MacroState

variable {σ : Type} (s : MacroState σ)

def write (e : MacroEntry) : MacroState σ := { s with log := s.log ++ [e] }

def slotEnd : MacroSlot → Int
  | .one => s.macroEnd
  | .two => s.rMacroEnd

def setSlotEnd (p : Int) : MacroSlot → MacroState σ
  | .one => { s with macroEnd := p }
  | .two => { s with rMacroEnd := p }

end MacroState

section Machine

variable {σ : Type} (E : MacroEnv σ) (cfg : DynamicMacroConfig)

def DynamicMacroConfig.slotBuffer : MacroSlot → Int
  | .one => 0
  | .two => cfg.size - 1

def MacroState.initial (buffer : Int → Record) (env : σ) : MacroState σ :=
  ⟨buffer, 0, cfg.size - 1, 0, none, env, []⟩

def dynamicMacroRecordStart (slot : MacroSlot) (s : MacroState σ) : MacroState σ :=
  { s with
    env := E.recordStart slot s.env
    macroPointer := cfg.slotBuffer slot
    macroId := some slot }

def dynamicMacroRecordKey (slot : MacroSlot) (record : Record) (s : MacroState σ) : MacroState σ :=
  if record.event.pressed = false ∧ s.macroPointer = cfg.slotBuffer slot then s
  else
    let s :=
      if s.macroPointer - slot.direction ≠ s.slotEnd slot.other then
        { s with
          macroBuffer := Function.update s.macroBuffer s.macroPointer record
          macroPointer := s.macroPointer + slot.direction
          log := s.log ++ [.stored s.macroPointer] }
      else s
    { s with env := E.recordKey slot record s.env }

/-- The loop of `dynamic_macro_record_end`; each round brings the pointer one cell closer to the start. -/
def trimLoop (buffer : Int → Record) (macroBuffer direction : Int) : Nat → Int → Int
  | 0, p => p
  | n + 1, p =>
    if p ≠ macroBuffer ∧ (buffer (p - direction)).event.pressed = true then
      trimLoop buffer macroBuffer direction n (p - direction)
    else p

def dynamicMacroRecordEnd (slot : MacroSlot) (s : MacroState σ) : MacroState σ :=
  let p := trimLoop s.macroBuffer (cfg.slotBuffer slot) slot.direction
    (s.macroPointer - cfg.slotBuffer slot).natAbs s.macroPointer
  { s.setSlotEnd p slot with env := E.recordEnd slot s.env }

def dynamicMacroStopRecording (s : MacroState σ) : MacroState σ :=
  match s.macroId with
  | none => s
  | some slot => { dynamicMacroRecordEnd E cfg slot s with macroId := none }

/-- The function that runs `process_dynamic_macro` for a played key. -/
abbrev NestedMacro (σ : Type) := Nat → Record → MacroState σ → Option (Bool × MacroState σ)

def runMacroProc (nested : NestedMacro σ) :
    MacroProc σ → MacroState σ → Option ((Record → Record) × MacroState σ)
  | .done change env, s => some (change, { s with env := env })
  | .call keycode record env next, s =>
    (nested keycode record { s with env := env }).bind fun (answer, s) =>
      runMacroProc nested (next answer s.env) s

def changeCell (slot : MacroSlot) (p : Int) (change : Record → Record) (s : MacroState σ) : MacroState σ :=
  if change (s.macroBuffer p) = s.macroBuffer p then s
  else
    { s with
      macroBuffer := Function.update s.macroBuffer p (change (s.macroBuffer p))
      log := s.log ++ [.changed slot] }

def cellsFrom (buffer : Int → Record) (d p : Int) (count : Nat) : List Record :=
  (List.range count).map fun k : Nat => buffer (p + d * k)

/-- What the keys stored meanwhile did to the cells that are still to be played. -/
def checkPending (slot : MacroSlot) (p macroEnd : Int) (before : Int → Record) (s : MacroState σ) : MacroState σ :=
  if cellsFrom s.macroBuffer slot.direction p (macroEnd - p).natAbs =
      cellsFrom before slot.direction p (macroEnd - p).natAbs then s
  else s.write (.overtaken slot)

/-- The loop of `dynamic_macro_play`, for at most `n` rounds, with the records it passed on. -/
def playLoop (nested : NestedMacro σ) (slot : MacroSlot) (macroEnd : Int) :
    Nat → Int → MacroState σ → Option (List Record × MacroState σ)
  | 0, p, s => if p = macroEnd then some ([], s) else none
  | n + 1, p, s =>
    if p = macroEnd then some ([], s)
    else
      (runMacroProc nested (E.processRecord (s.macroBuffer p) s.env) s).bind fun (change, s') =>
        let s' := checkPending slot (p + slot.direction) macroEnd s.macroBuffer (changeCell slot p change s')
        (playLoop nested slot macroEnd n (p + slot.direction) s').map fun (records, s') =>
          (s.macroBuffer p :: records, s')

def dynamicMacroPlay (nested : NestedMacro σ) (rounds : Nat) (slot : MacroSlot) (s : MacroState σ) :
    Option (MacroState σ) :=
  (playLoop E nested slot (s.slotEnd slot) rounds (cfg.slotBuffer slot)
      { s with env := E.playStart slot s.env }).map fun (records, s') =>
    { s' with
      env := E.playEnd slot s.env s'.env
      log := s'.log ++ [.played slot s.log.length records] }

def processIdle (nested : NestedMacro σ) (rounds keycode : Nat) (record : Record) (s : MacroState σ) :
    Option (Bool × MacroState σ) :=
  if record.event.pressed = true then some (true, s)
  else
    match recordStartSlot keycode, playSlot keycode with
    | some slot, _ => some (false, dynamicMacroRecordStart E cfg slot s)
    | none, some slot =>
      (dynamicMacroPlay E cfg nested rounds slot s).map fun s => (false, s)
    | none, none => some (true, s)

def processRecording (slot : MacroSlot) (keycode : Nat) (record : Record) (s : MacroState σ) :
    Bool × MacroState σ :=
  if (recordStartSlot keycode).isSome ∨ keycode = qkDynamicMacroRecordStop then
    if record.event.pressed = decide (keycode = qkDynamicMacroRecordStop) then
      (false, dynamicMacroStopRecording E cfg s)
    else (false, s)
  else if cfg.noNesting ∧ (playSlot keycode).isSome then (false, s)
  else if E.validKey s.env keycode record then (true, dynamicMacroRecordKey E cfg slot record s)
  else (true, s)

/-- `process_dynamic_macro` with playbacks nested up to the depth `fuel`. -/
def processDynamicMacro : Nat → NestedMacro σ
  | 0 => fun _ _ _ => none
  | fuel + 1 => fun keycode record s =>
    let s := s.write (.key keycode record (E.validKey s.env keycode record))
    match s.macroId with
    | none => processIdle E cfg (processDynamicMacro fuel) (cfg.size + fuel) keycode record s
    | some slot => some (processRecording E cfg slot keycode record s)

/-- A step of a run: a key comes to `process_dynamic_macro`, a recording is stopped from elsewhere, or the
environment changes by itself. -/
inductive DynamicMacroStep (σ : Type) where
  | key (keycode : Nat) (record : Record)
  | stop
  | environment (change : σ → σ)

def DynamicMacroStep.exec (fuel : Nat) (s : MacroState σ) : DynamicMacroStep σ → Option (MacroState σ)
  | .key keycode record => (processDynamicMacro E cfg fuel keycode record s).map Prod.snd
  | .stop => some (dynamicMacroStopRecording E cfg (s.write .stop))
  | .environment change => some { s with env := change s.env }

def runDynamicMacros (fuel : Nat) (s : MacroState σ) (steps : List (DynamicMacroStep σ)) : Option (MacroState σ) :=
  steps.foldlM (DynamicMacroStep.exec E cfg fuel) s

end Machine

end Keys
end VialQmk
