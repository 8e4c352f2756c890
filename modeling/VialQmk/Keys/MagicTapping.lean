import Mathlib.Algebra.Order.Group.Multiset
import Mathlib.Tactic.Abel
import VialQmk.Keys.TappingConservation
import VialQmk.Lib.Nested

/-!
# Keys.MagicTapping

The tapping code, with the keycodes of the magic matrix position. `vial_keycode_down` and `vial_keycode_up` leave the
keycode in `g_vial_magic_keycode_override` and call `action_exec` for an event at this position. The record does not
have the keycode: `keymap_key_to_keycode` looks it up when the record is processed, more than once.

* The machine is that of `Keys.Tapping`, with the keycode that each record was issued with.
* `MagicState.heldBack`: the records whose keycode is still to be looked up.
* `keeps_keycode`: each record that came in has been processed once, as what it was issued with, or is held.
-/

namespace VialQmk
namespace Keys
namespace MagicTapping

open Lib

/-- `vial_unlock_in_progress` and `g_vial_magic_keycode_override`. -/
structure Globals where
  vialUnlockInProgress : Bool
  magicKeycodeOverride : UInt16

def Globals.keymapKeyToKeycode (g : Globals) : UInt16 :=
  if g.vialUnlockInProgress then 0 else g.magicKeycodeOverride

/-- A record, and the keycode that `vial_keycode_down` or `vial_keycode_up` was called with for it. -/
structure MagicRecord extends Record where
  issued : UInt16
  deriving DecidableEq

namespace MagicRecord

def zero : MagicRecord := ⟨.zero, 0⟩

def change (f : Record → Record) (r : MagicRecord) : MagicRecord := ⟨f r.toRecord, r.issued⟩

def fresh (r : MagicRecord) : MagicRecord := ⟨.raw r.event r.keycode, r.issued⟩

end MagicRecord

/-- A record of an event at the magic position, with no keycode of its own. -/
def AtMagic (r : Record) : Prop :=
  ¬ r.IsNoEvent ∧ r.event.key = ⟨vialMatrixMagic, vialMatrixMagic⟩ ∧ r.keycode = 0
deriving Decidable

/-- The course of a call of `process_record`, with the lookups of the keycode behind the first one: in
`preprocess_tap_dance`, where the dance has changed something, in `process_record_handler` and in
`post_process_record_quantum`. -/
inductive MagicProc (σ : Type) where
  /-- The keycode is not looked up again. -/
  | rest (p : Proc σ)
  | lookup (env : σ) (next : MagicProc σ)
  | exec (event : KeyEvent) (keycode : Nat) (env : σ) (next : σ → MagicProc σ)

def MagicProc.erase {σ : Type} : MagicProc σ → Proc σ
  | .rest p => p
  | .lookup _ next => next.erase
  | .exec event keycode env next => .exec event keycode env fun env => (next env).erase

structure MagicEnv (σ : Type) extends TapEnv σ where
  /-- The keycode that `vial_keycode_down` or `vial_keycode_up` was called with for the event that comes in. -/
  issued : σ → KeyEvent → UInt16
  lookups : Record → σ → MagicProc σ
  lookups_erase : ∀ r env, (lookups r env).erase = processRecord r env

inductive MagicEntry where
  /-- The record comes in. -/
  | issued (r : MagicRecord)
  /-- `process_record` looks the keycode of its record up. -/
  | processed (r : MagicRecord) (keycode : UInt16)
  /-- It does so again. -/
  | lookedUp (r : MagicRecord) (keycode : UInt16)
  /-- The magic position has another keycode now than the record, which is held back, was issued with. -/
  | overwritten (r : MagicRecord)
  | overflow
  | reentered
  deriving DecidableEq

def MagicEntry.isAccident : MagicEntry → Bool
  | .overwritten _ | .overflow | .reentered => true
  | .issued _ | .processed _ _ | .lookedUp _ _ => false

def MagicEntry.issuedRecord : MagicEntry → Option MagicRecord
  | .issued r => some r
  | _ => none

def MagicEntry.processedRecord : MagicEntry → Option MagicRecord
  | .processed r _ => some r.fresh
  | _ => none

def issued (log : List MagicEntry) : List MagicRecord := log.filterMap MagicEntry.issuedRecord

/-- The records that `process_record` was called for, as they came in. -/
def processed (log : List MagicEntry) : List MagicRecord := log.filterMap MagicEntry.processedRecord

structure MagicState (σ : Type) where
  tappingKey : MagicRecord
  waitingBuffer : List MagicRecord
  /-- The records of calls of `process_record`, up to the last lookup, and of calls of `process_tapping` in which
  something else is processed first. -/
  onTheWay : List MagicRecord
  env : σ
  log : List MagicEntry

section Machine

variable {σ : Type} (E : MagicEnv σ) (globals : σ → Globals)

/-- The record would be processed as another keycode than it was issued with. -/
def Stale (env : σ) (r : MagicRecord) : Prop :=
  AtMagic r.toRecord ∧ (globals env).keymapKeyToKeycode ≠ r.issued
deriving Decidable

namespace MagicState

variable (s : MagicState σ)

def setTapping (r : MagicRecord) : MagicState σ := { s with tappingKey := r }

def write (e : MagicEntry) : MagicState σ := { s with log := s.log ++ [e] }

def hold (r : MagicRecord) : MagicState σ := { s with onTheWay := r :: s.onTheWay }

def unhold : MagicState σ := { s with onTheWay := s.onTheWay.tail }

def held : List MagicRecord := (if s.tappingKey.Unsettled then [s.tappingKey] else []) ++ s.waitingBuffer

def heldBack : List MagicRecord := s.held ++ s.onTheWay

def check (l : List MagicRecord) : MagicState σ :=
  { s with log := s.log ++ (l.filter fun r => decide (Stale globals s.env r)).map .overwritten }

/-- The rest of the firmware has done something, perhaps called `vial_keycode_down` or `vial_keycode_up`. -/
def move (env : σ) : MagicState σ := { s with env := env }.check globals s.heldBack

def erase : TapState σ := ⟨s.tappingKey.toRecord, s.waitingBuffer.map (·.toRecord), s.env, []⟩

end MagicState

/-- The function that runs a nested call of `action_tapping_process`. -/
abbrev MagicNested (σ : Type) := KeyEvent → Nat → MagicState σ → Option (MagicState σ)

/-- A nested call. It is on record unless the call of `process_record` was the last thing to do for a record that
just came in (`straight`). -/
def exec (nested : MagicNested σ) (straight : Bool) (event : KeyEvent) (keycode : Nat) (s : MagicState σ) :
    Option (MagicState σ) :=
  nested event keycode (if straight then s else s.write .reentered)

def runProc (nested : MagicNested σ) (straight : Bool) :
    Proc σ → MagicState σ → Option (RecordChange × MagicState σ)
  | .done change env, s => some (change, s.move globals env)
  | .exec event keycode env next, s =>
    (exec nested straight event keycode (s.move globals env)).bind fun s => runProc nested straight (next s.env) s

/-- The rest of a call of `process_record` for a record that is on its way. -/
def runLookups (nested : MagicNested σ) (straight : Bool) (keyp : MagicRecord) :
    MagicProc σ → MagicState σ → Option (RecordChange × MagicState σ)
  | .rest p, s => runProc globals nested straight p s.unhold
  | .lookup env next, s =>
    runLookups nested straight keyp next
      ((s.move globals env).write (.lookedUp keyp (globals env).keymapKeyToKeycode))
  | .exec event keycode env next, s =>
    (exec nested straight event keycode (s.move globals env)).bind fun s =>
      runLookups nested straight keyp (next s.env) s

def processRecord (nested : MagicNested σ) (straight : Bool) (keyp : MagicRecord) (s : MagicState σ) :
    Option (RecordChange × MagicState σ) :=
  runLookups globals nested straight keyp (E.lookups keyp.toRecord s.env)
    ((s.hold keyp).write (.processed keyp (globals s.env).keymapKeyToKeycode))

def passRecord (nested : MagicNested σ) (straight : Bool) (keyp : MagicRecord) (s : MagicState σ) :
    Option (MagicRecord × MagicState σ) :=
  (processRecord E globals nested straight keyp s).map fun (change, s) => (keyp.change change.apply, s)

def passTappingKey (nested : MagicNested σ) (s : MagicState σ) : Option (MagicState σ) :=
  (processRecord E globals nested false s.tappingKey s).map fun (change, s) =>
    s.setTapping (s.tappingKey.change change.apply)

/-- `process_record` of the release event made up for a tapping key with a count above 1. -/
def passSynthesized (nested : MagicNested σ) (time : UInt16) (s : MagicState σ) : Option (MagicState σ) :=
  (runProc globals nested false (E.processRecord (synthesizedRelease s.tappingKey.toRecord time) s.env) s).map
    fun (_, s) => s

def holding (keyp : MagicRecord) (run : MagicState σ → Option (MagicState σ)) (s : MagicState σ) :
    Option (MagicState σ) :=
  (run (s.hold keyp)).map MagicState.unhold

def waitingBufferScanTap (nested : MagicNested σ) (s : MagicState σ) : Option (MagicState σ) :=
  if s.tappingKey.tap.count > 0 ∨ s.tappingKey.event.pressed = false then some s
  else
    match s.waitingBuffer.findIdx? fun r => decide (IsScanned E.toTapEnv s.erase r.toRecord) with
    | none => some s
    | some i =>
      passTappingKey E globals nested
        { s with
          tappingKey := s.tappingKey.change fun r => r.setCount 1
          waitingBuffer := s.waitingBuffer.modify i fun r => r.change fun r => r.setCount 1 }

def processUnsettled (nested : MagicNested σ) (live : Bool) (keyp : MagicRecord) (s : MagicState σ) :
    Option (Bool × MagicRecord × MagicState σ) :=
  let event := keyp.event
  if s.tappingKey.IsTapping keyp.toRecord ∧ event.pressed = false then
    (holding keyp (passTappingKey E globals nested)
      (s.setTapping (s.tappingKey.change fun r => r.setCount 1))).map fun s =>
        (false, keyp.change fun r => { r with tap := s.tappingKey.tap }, s)
  else if event.pressed = false ∧ waitingBufferTyped s.erase event ∧
      E.permissiveHold s.env s.tappingKey.toRecord then
    (holding keyp (passTappingKey E globals nested) s).map fun s => (false, keyp, s.setTapping .zero)
  else if event.pressed = false ∧ ¬ waitingBufferTyped s.erase event then
    if IsRetained (E.layerSwitchGetAction s.env event.key) keyp.tap.count then some (false, keyp, s)
    else (passRecord E globals nested live keyp s).map fun (keyp, s) => (true, keyp, s)
  else if event.pressed = true then
    let s := s.setTapping (s.tappingKey.change Record.setInterrupted)
    if E.holdOnOtherKeyPress s.env s.tappingKey.toRecord then
      (holding keyp (passTappingKey E globals nested) s).map fun s => (false, keyp, s.setTapping .zero)
    else some (false, keyp, s)
  else some (false, keyp, s)

def startNewTap (nested : MagicNested σ) (keyp : MagicRecord) (s : MagicState σ) :
    Option (Bool × MagicRecord × MagicState σ) :=
  let released :=
    if s.tappingKey.tap.count > 1 then holding keyp (passSynthesized E globals nested keyp.event.time) s
    else some s
  released.bind fun s =>
    (waitingBufferScanTap E globals nested (s.setTapping keyp)).map fun s => (true, keyp, s)

def processSettled (nested : MagicNested σ) (live within : Bool) (keyp : MagicRecord) (s : MagicState σ) :
    Option (Bool × MagicRecord × MagicState σ) :=
  let event := keyp.event
  if s.tappingKey.IsTapping keyp.toRecord ∧ event.pressed = false then
    (passRecord E globals nested false (keyp.change fun r => { r with tap := s.tappingKey.tap }) s).map
      fun (keyp, s) => (true, keyp, s.setTapping (if within then keyp else .zero))
  else if E.isTapRecord s.env keyp.toRecord ∧ event.pressed = true then startNewTap E globals nested keyp s
  else (passRecord E globals nested live keyp s).map fun (keyp, s) => (true, keyp, s)

def processReleased (nested : MagicNested σ) (live : Bool) (keyp : MagicRecord) (s : MagicState σ) :
    Option (Bool × MagicRecord × MagicState σ) :=
  let event := keyp.event
  if event.pressed = true then
    if s.tappingKey.IsTapping keyp.toRecord then
      if WithinQuickTapTerm E.toTapEnv s.erase event ∧ s.tappingKey.tap.interrupted = false ∧
          s.tappingKey.tap.count > 0 then
        let count := s.tappingKey.tap.count
        let keyp := keyp.change fun r => { r with tap := s.tappingKey.tap }
        let keyp := if count < 15 then keyp.change fun r => r.setCount (count + 1) else keyp
        (passRecord E globals nested false keyp s).map fun (keyp, s) => (true, keyp, s.setTapping keyp)
      else some (true, keyp, s.setTapping keyp)
    else if E.isTapRecord s.env keyp.toRecord then
      (waitingBufferScanTap E globals nested (s.setTapping keyp)).map fun s => (true, keyp, s)
    else
      (passRecord E globals nested live keyp (s.setTapping (s.tappingKey.change Record.setInterrupted))).map
        fun (keyp, s) => (true, keyp, s)
  else (passRecord E globals nested live keyp s).map fun (keyp, s) => (true, keyp, s)

def processTapping (nested : MagicNested σ) (live : Bool) (keyp : MagicRecord) (s : MagicState σ) :
    Option (Bool × MagicRecord × MagicState σ) :=
  let event := keyp.event
  if s.tappingKey.IsNoEvent then
    if keyp.IsNoEvent then some (true, keyp, s)
    else if event.pressed = true ∧ E.isTapRecord s.env keyp.toRecord then
      let s := (s.setTapping keyp).move globals (E.processRecordTapHint s.env keyp.toRecord)
      (waitingBufferScanTap E globals nested s).map fun s => (true, keyp, s)
    else (passRecord E globals nested live keyp s).map fun (keyp, s) => (true, keyp, s)
  else if s.tappingKey.event.pressed = true then
    if WithinTappingTerm E.toTapEnv s.erase event then
      if keyp.IsNoEvent then some (true, keyp, s)
      else if s.tappingKey.tap.count = 0 then processUnsettled E globals nested live keyp s
      else processSettled E globals nested live true keyp s
    else if s.tappingKey.tap.count = 0 then
      (holding keyp (passTappingKey E globals nested) s).map fun s => (false, keyp, s.setTapping .zero)
    else if keyp.IsNoEvent then some (true, keyp, s)
    else processSettled E globals nested live false keyp s
  else if WithinTappingTerm E.toTapEnv s.erase event then
    if keyp.IsNoEvent then some (true, keyp, s)
    else processReleased E globals nested live keyp s
  else some (false, keyp, s.setTapping .zero)

def processWaitingBuffer (nested : MagicNested σ) : Nat → MagicState σ → Option (MagicState σ)
  | 0, s => if s.waitingBuffer = [] then some s else none
  | n + 1, s =>
    match s.waitingBuffer with
    | [] => some s
    | keyp :: _ =>
      (processTapping E globals nested false keyp s).bind fun (finished, keyp, s) =>
        if finished then processWaitingBuffer nested n { s with waitingBuffer := s.waitingBuffer.tail }
        else some { s with waitingBuffer := s.waitingBuffer.set 0 keyp }

def keepRecord (keyp : MagicRecord) (s : MagicState σ) : MagicState σ :=
  if keyp.IsNoEvent then s
  else if s.waitingBuffer.length + 1 = waitingBufferSize then
    { s.write .overflow with tappingKey := .zero, waitingBuffer := [] }.move globals (E.clearKeyboard s.env)
  else { s with waitingBuffer := s.waitingBuffer ++ [keyp] }

def actionTappingProcess (nested : MagicNested σ) (rounds : Nat) (keyp : MagicRecord) (s : MagicState σ) :
    Option (MagicState σ) :=
  let s := if keyp.IsNoEvent then s else (s.write (.issued keyp)).check globals [keyp]
  (processTapping E globals nested true keyp s).bind fun (finished, keyp, s) =>
    processWaitingBuffer E globals nested rounds (if finished then s else keepRecord E globals keyp s)

/-- `action_tapping_process` with nested calls up to the depth `fuel`. -/
def execTapping : Nat → MagicNested σ
  | 0 => fun _ _ _ => none
  | fuel + 1 => fun event keycode s =>
    actionTappingProcess E globals (execTapping fuel) (waitingBufferSize + fuel)
      ⟨.raw event keycode, E.issued s.env event⟩ s

def execStep (fuel : Nat) (s : MagicState σ) : TapStep σ → Option (MagicState σ)
  | .event e keycode => execTapping E globals fuel e keycode s
  | .environment change => some (s.move globals (change s.env))

def runTapping (fuel : Nat) (s : MagicState σ) (steps : List (TapStep σ)) : Option (MagicState σ) :=
  steps.foldlM (execStep E globals fuel) s

def MagicState.initial (env : σ) : MagicState σ := ⟨.zero, [], [], env, []⟩

/-- Each record of the magic position has been processed as the keycode that it was issued with. -/
def Faithful (log : List MagicEntry) : Prop :=
  ∀ r keycode, .processed r keycode ∈ log ∨ .lookedUp r keycode ∈ log → AtMagic r.toRecord → keycode = r.issued

end Machine

/-! ## What is owed -/

section Keeps

variable {σ : Type} {E : MagicEnv σ} {globals : σ → Globals} {nested : MagicNested σ}

variable {r : MagicRecord} {straight : Bool}

theorem fresh_change {f : Record → Record} (hf : (f r.toRecord).event = r.event)
    (hf' : (f r.toRecord).keycode = r.keycode) : (r.change f).fresh = r.fresh := by
  simp only [MagicRecord.fresh, MagicRecord.change, hf, hf']

/-- The records `o`, as they came in, are still to be passed to `process_record`, and `x` twice. -/
structure Owes (globals : σ → Globals) (x o : Multiset MagicRecord) (s : MagicState σ) : Prop where
  owed : ∀ r ∈ o, ¬ Stale globals s.env r
  way : ∀ r ∈ s.onTheWay, ¬ Stale globals s.env r
  faithful : Faithful s.log
  balance : ↑(issued s.log) + x = ↑(processed s.log) + o

def MagicRecord.kept (r : MagicRecord) : Multiset MagicRecord := if r.Unsettled then {r.fresh} else 0

def MagicState.buffered (s : MagicState σ) : Multiset MagicRecord := ↑(s.waitingBuffer.map MagicRecord.fresh)

/-- What is owed of a record in a call of `process_tapping`; a tick is none. -/
def MagicRecord.flight (r : MagicRecord) : Multiset MagicRecord := if r.IsNoEvent then 0 else {r.fresh}

/-- A state between two calls, with the records `f` on the way. -/
structure Sound (globals : σ → Globals) (x f : Multiset MagicRecord) (s : MagicState σ) : Prop where
  owes : Owes globals x (f + s.tappingKey.kept + s.buffered) s
  events : ∀ r ∈ s.waitingBuffer, ¬ r.IsNoEvent
  presses : ∀ r ∈ s.waitingBuffer, r.event.pressed = true → r.tap.count = 0

variable {s s' t : MagicState σ} {x f f' o : Multiset MagicRecord} {keyp k : MagicRecord} {live : Bool}

theorem MagicRecord.kept_unsettled (h : r.Unsettled) : r.kept = {r.fresh} := if_pos h

theorem MagicRecord.kept_settled (h : ¬ r.Unsettled) : r.kept = 0 := if_neg h

theorem kept_setInterrupted (r : MagicRecord) : (r.change Record.setInterrupted).kept = r.kept := rfl

theorem buffered_congr (h : s'.waitingBuffer = s.waitingBuffer) : s'.buffered = s.buffered := by
  rw [MagicState.buffered, h, MagicState.buffered]

theorem not_stale_tick {env : σ} (h : r.IsNoEvent) : ¬ Stale globals env r := fun hstale => hstale.1.1 h

theorem Owes.of_same (h : Owes globals x o s) (henv : s'.env = s.env) (hway : s'.onTheWay = s.onTheWay)
    (hlog : s'.log = s.log) : Owes globals x o s' :=
  ⟨henv ▸ h.owed, henv ▸ hway ▸ h.way, hlog ▸ h.faithful, hlog ▸ h.balance⟩

theorem Sound.setTapping (h : Sound globals x f s) (hkept : f + s.tappingKey.kept = f' + r.kept) :
    Sound globals x f' (s.setTapping r) :=
  ⟨(hkept ▸ h.owes : Owes globals x (f' + r.kept + s.buffered) s).of_same rfl rfl rfl, h.events, h.presses⟩

theorem Owes.hold (h : Owes globals x o s) (hkeyp : ¬ Stale globals s.env keyp) : Owes globals x o (s.hold keyp) := by
  refine ⟨h.owed, fun r hr => ?_, h.faithful, h.balance⟩
  rcases List.mem_cons.mp hr with rfl | hr
  · exact hkeyp
  · exact h.way r hr

theorem Owes.unhold (h : Owes globals x o s) : Owes globals x o s.unhold :=
  ⟨h.owed, fun r hr => h.way r (List.mem_of_mem_tail hr), h.faithful, h.balance⟩

theorem MagicRecord.flight_event (h : ¬ r.IsNoEvent) : r.flight = {r.fresh} := if_neg h

theorem MagicRecord.flight_congr {r' : MagicRecord} (h : r.fresh = r'.fresh) : r.flight = r'.flight := by
  have hevent : r.IsNoEvent ↔ r'.IsNoEvent := by
    rw [Record.IsNoEvent, Record.IsNoEvent, show r.event = r'.event from congrArg (fun r => r.event) h]
  rw [flight, flight, h]
  exact if_congr hevent rfl rfl

def Onward (R : MagicState σ → MagicState σ → Prop) (s s' : MagicState σ) : Prop :=
  Unless (fun e : MagicEntry => e.isAccident = true) MagicState.log R s s'

theorem check_onward (s : MagicState σ) (l : List MagicRecord) :
    Onward (fun s s' => s' = s ∧ ∀ r ∈ l, ¬ Stale globals s.env r) s (s.check globals l) := by
  refine ⟨_, rfl, fun hclean => ?_⟩
  have hnone : ∀ r ∈ l, ¬ Stale globals s.env r := by
    intro r hr hstale
    exact hclean (.overwritten r) (List.mem_map_of_mem (List.mem_filter.mpr ⟨hr, decide_eq_true hstale⟩)) rfl
  have hfilter : l.filter (fun r => decide (Stale globals s.env r)) = [] :=
    List.filter_eq_nil_iff.mpr fun r hr => by simp [hnone r hr]
  refine ⟨?_, hnone⟩
  rw [MagicState.check, hfilter, List.map_nil, List.append_nil]

theorem move_onward (s : MagicState σ) (env : σ) :
    Onward (fun s s' => s' = { s with env := env } ∧ ∀ r ∈ s.heldBack, ¬ Stale globals env r) s (s.move globals env) :=
  check_onward { s with env := env } s.heldBack

def Covered (o : Multiset MagicRecord) (s : MagicState σ) : Prop := ∀ r ∈ o, ∃ r' ∈ s.heldBack, r'.fresh = r

theorem mem_heldBack : r ∈ s.heldBack ↔
    (s.tappingKey.Unsettled ∧ r = s.tappingKey) ∨ r ∈ s.waitingBuffer ∨ r ∈ s.onTheWay := by
  rw [MagicState.heldBack, MagicState.held, List.append_assoc, List.mem_append, List.mem_append]
  split
  · rename_i h
    simp [h]
  · rename_i h
    simp [h]

theorem covered_buffered (s : MagicState σ) : Covered s.buffered s := by
  intro r hr
  obtain ⟨r', hr', rfl⟩ := List.mem_map.mp (Multiset.mem_coe.mp hr)
  exact ⟨r', mem_heldBack.mpr (.inr (.inl hr')), rfl⟩

theorem covered_flight (s : MagicState σ) (keyp : MagicRecord) : Covered keyp.flight (s.hold keyp) := by
  intro r hr
  rw [MagicRecord.flight] at hr
  split at hr
  · exact absurd hr (Multiset.notMem_zero r)
  · exact ⟨keyp, mem_heldBack.mpr (.inr (.inr List.mem_cons_self)), (Multiset.mem_singleton.mp hr).symm⟩

theorem Owes.flight (h : Owes globals x (keyp.flight + o) s) : ¬ Stale globals s.env keyp := by
  by_cases hevent : keyp.IsNoEvent
  · exact not_stale_tick hevent
  · rw [MagicRecord.flight_event hevent] at h
    exact h.owed keyp.fresh (by simp)

theorem covered_kept (s : MagicState σ) : Covered s.tappingKey.kept s := by
  intro r hr
  rw [MagicRecord.kept] at hr
  split at hr
  · rename_i hunsettled
    rw [Multiset.mem_singleton.mp hr]
    exact ⟨_, mem_heldBack.mpr (.inl ⟨hunsettled, rfl⟩), rfl⟩
  · exact absurd hr (Multiset.notMem_zero r)

theorem Covered.add {o' : Multiset MagicRecord} (h : Covered o s) (h' : Covered o' s) : Covered (o + o') s :=
  fun r hr => (Multiset.mem_add.mp hr).elim (h r) (h' r)

theorem Owes.environment (h : Owes globals x o s) (ho : Covered o s) {env : σ}
    (henv : ∀ r ∈ s.heldBack, ¬ Stale globals env r) : Owes globals x o { s with env := env } where
  owed r hr := by
    obtain ⟨r', hr', rfl⟩ := ho r hr
    exact henv r' hr'
  way r hr := henv r (mem_heldBack.mpr (.inr (.inr hr)))
  faithful := h.faithful
  balance := h.balance

theorem Sound.environment (h : Sound globals x 0 s) {env : σ} (henv : ∀ r ∈ s.heldBack, ¬ Stale globals env r) :
    Sound globals x 0 { s with env := env } := by
  refine ⟨h.owes.environment ?_ henv, h.events, h.presses⟩
  rw [zero_add]
  exact (covered_kept s).add (covered_buffered s)

theorem faithful_lookup (h : Faithful s.log) (hkeyp : ¬ Stale globals s.env keyp) {e : MagicEntry}
    (he : e = .processed keyp (globals s.env).keymapKeyToKeycode ∨ e = .lookedUp keyp (globals s.env).keymapKeyToKeycode) :
    Faithful (s.log ++ [e]) := by
  have hfound : ∀ r keycode, .processed r keycode = e ∨ .lookedUp r keycode = e → AtMagic r.toRecord →
      keycode = r.issued := by
    rintro r keycode hr hmagic
    have heq : r = keyp ∧ keycode = (globals s.env).keymapKeyToKeycode := by
      rcases hr with hr | hr <;> rcases he with he | he <;> cases hr.trans he <;> exact ⟨rfl, rfl⟩
    obtain ⟨rfl, rfl⟩ := heq
    exact not_not.mp fun hne => hkeyp ⟨hmagic, hne⟩
  intro r keycode hr hmagic
  rcases hr with hr | hr
  · rcases List.mem_append.mp hr with hr | hr
    · exact h r keycode (.inl hr) hmagic
    · exact hfound r keycode (.inl (List.mem_singleton.mp hr)) hmagic
  · rcases List.mem_append.mp hr with hr | hr
    · exact h r keycode (.inr hr) hmagic
    · exact hfound r keycode (.inr (List.mem_singleton.mp hr)) hmagic

/-! ## `process_record` -/

/-- From the one state to the other: the records `f` are on the way before, and `f'` behind. -/
structure Steps (globals : σ → Globals) (live : Bool) (pre : Prop) (f f' : Multiset MagicRecord) (s s' : MagicState σ) :
    Prop where
  way : s'.onTheWay = s.onTheWay
  buffer : live = false → s'.waitingBuffer.map MagicRecord.fresh = s.waitingBuffer.map MagicRecord.fresh
  sound : ∀ x, pre → Sound globals x f s → Sound globals x f' s'

variable {pre : Prop}

theorem Steps.refl : Steps globals live pre f f s s := ⟨rfl, fun _ => rfl, fun _ _ h => h⟩

theorem Steps.trans {f'' : Multiset MagicRecord} (h : Steps globals live pre f f' s t)
    (h' : Steps globals live pre f' f'' t s') : Steps globals live pre f f'' s s' :=
  ⟨h'.way.trans h.way, fun hl => (h'.buffer hl).trans (h.buffer hl),
    fun x hp hs => h'.sound x hp (h.sound x hp hs)⟩

def NestedSteps (globals : σ → Globals) (nested : MagicNested σ) : Prop :=
  ∀ event keycode s s', nested event keycode s = some s' → Onward (Steps globals true True 0 0) s s'

/-- A part of a call of `process_record`. Unless the call is the last thing to do, nothing else happens in it. -/
structure Piece (globals : σ → Globals) (straight : Bool) (s s' : MagicState σ) : Prop where
  way : s'.onTheWay = s.onTheWay
  sound : ∀ x, Sound globals x 0 s → Sound globals x 0 s'
  still : straight = false → s'.tappingKey = s.tappingKey ∧ s'.waitingBuffer = s.waitingBuffer
  owes : straight = false → ∀ x o, Covered o s → Owes globals x o s → Owes globals x o s'

theorem heldBack_congr (hkey : s'.tappingKey = s.tappingKey) (hbuffer : s'.waitingBuffer = s.waitingBuffer)
    (hway : s'.onTheWay = s.onTheWay) : s'.heldBack = s.heldBack := by
  rw [MagicState.heldBack, MagicState.held, hkey, hbuffer, hway]
  rfl

namespace Piece

variable {straight : Bool}

theorem trans (h : Piece globals straight s t) (h' : Piece globals straight t s') : Piece globals straight s s' where
  way := h'.way.trans h.way
  sound x hs := h'.sound x (h.sound x hs)
  still hl := ⟨(h'.still hl).1.trans (h.still hl).1, (h'.still hl).2.trans (h.still hl).2⟩
  owes hl x o ho hs := by
    refine h'.owes hl x o (fun r hr => ?_) (h.owes hl x o ho hs)
    rw [heldBack_congr (h.still hl).1 (h.still hl).2 h.way]
    exact ho r hr

theorem environment (straight : Bool) {env : σ} (henv : ∀ r ∈ s.heldBack, ¬ Stale globals env r) :
    Piece globals straight s { s with env := env } :=
  ⟨rfl, fun _ hs => hs.environment henv, fun _ => ⟨rfl, rfl⟩, fun _ _ _ ho hs => hs.environment ho henv⟩

theorem write {e : MagicEntry} (straight : Bool)
    (h : ∀ x o, Owes globals x o s → Owes globals x o (s.write e)) : Piece globals straight s (s.write e) :=
  ⟨rfl, fun x hs => ⟨h x _ hs.owes, hs.events, hs.presses⟩, fun _ => ⟨rfl, rfl⟩, fun _ x o _ => h x o⟩

end Piece

theorem move_piece (straight : Bool) (s : MagicState σ) (env : σ) :
    Onward (Piece globals straight) s (s.move globals env) := by
  refine Unless.mono (move_onward s env) ?_
  rintro ⟨heq, henv⟩
  rw [heq]
  exact .environment straight henv

theorem exec_piece (hn : NestedSteps globals nested) {event : KeyEvent} {keycode : Nat}
    (h : exec nested straight event keycode s = some s') : Onward (Piece globals straight) s s' := by
  cases straight with
  | true =>
    refine Unless.mono (hn _ _ _ _ h) fun hsteps => ?_
    exact ⟨hsteps.way, fun x => hsteps.sound x trivial, nofun, nofun⟩
  | false =>
    have hwrite : Onward (fun _ _ => False) s (s.write .reentered) := Unless.of_write rfl fun hclean => hclean rfl
    exact Unless.comp hwrite (hn _ _ _ _ h) fun hfalse _ => hfalse.elim

theorem runProc_piece (hn : NestedSteps globals nested) (straight : Bool) (p : Proc σ) :
    ∀ {s s' : MagicState σ} {c : RecordChange}, runProc globals nested straight p s = some (c, s') →
      Onward (Piece globals straight) s s' := by
  induction p with
  | done change env =>
    intro s s' c h
    cases h
    exact move_piece straight s env
  | exec event keycode env next ih =>
    intro s s' c h
    obtain ⟨t, hnested, hrest⟩ := Option.bind_eq_some_iff.mp h
    exact Unless.comp (move_piece straight s env) (Unless.comp (exec_piece hn hnested) (ih _ hrest) Piece.trans) Piece.trans

/-- A part of a call at the end of which the record is no longer on its way. -/
structure Lands (globals : σ → Globals) (straight : Bool) (keyp : MagicRecord) (s s' : MagicState σ) : Prop where
  way : s.onTheWay = keyp :: s'.onTheWay
  sound : ∀ x, Sound globals x 0 s → Sound globals x 0 s'
  still : straight = false → s'.tappingKey = s.tappingKey ∧ s'.waitingBuffer = s.waitingBuffer
  owes : straight = false → ∀ x o, Covered o s.unhold → Owes globals x o s → Owes globals x o s'

theorem Covered.of_unhold (h : Covered o s.unhold) : Covered o s := by
  intro r hr
  obtain ⟨r', hr', heq⟩ := h r hr
  refine ⟨r', mem_heldBack.mpr ?_, heq⟩
  rcases mem_heldBack.mp hr' with hr' | hr' | hr'
  · exact .inl hr'
  · exact .inr (.inl hr')
  · exact .inr (.inr (List.mem_of_mem_tail hr'))

theorem Piece.lands (h : Piece globals straight s t) (h' : Lands globals straight keyp t s') :
    Lands globals straight keyp s s' where
  way := h.way ▸ h'.way
  sound x hs := h'.sound x (h.sound x hs)
  still hl := ⟨(h'.still hl).1.trans (h.still hl).1, (h'.still hl).2.trans (h.still hl).2⟩
  owes hl x o ho hs := by
    refine h'.owes hl x o (fun r hr => ?_) (h.owes hl x o ho.of_unhold hs)
    have hsame : t.unhold.heldBack = s.unhold.heldBack :=
      heldBack_congr (h.still hl).1 (h.still hl).2 (congrArg List.tail h.way)
    rw [hsame]
    exact ho r hr

theorem unhold_lands {way : List MagicRecord} (hway : s.onTheWay = keyp :: way)
    (h : Piece globals straight s.unhold s') : Lands globals straight keyp s s' where
  way := by rw [h.way, MagicState.unhold, hway, List.tail_cons]
  sound x hs := h.sound x ⟨hs.owes.unhold, hs.events, hs.presses⟩
  still := h.still
  owes hl x o ho hs := h.owes hl x o ho hs.unhold

theorem owes_lookedUp (hkeyp : ¬ Stale globals s.env keyp) (h : Owes globals x o s) :
    Owes globals x o (s.write (.lookedUp keyp (globals s.env).keymapKeyToKeycode)) := by
  refine ⟨h.owed, h.way, faithful_lookup h.faithful hkeyp (.inr rfl), ?_⟩
  rw [MagicState.write, issued, processed, List.filterMap_append, List.filterMap_append]
  exact (List.append_nil (issued s.log)).symm ▸ (List.append_nil (processed s.log)).symm ▸ h.balance

theorem runLookups_lands (hn : NestedSteps globals nested) (straight : Bool) (keyp : MagicRecord) (p : MagicProc σ) :
    ∀ {s s' : MagicState σ} {c : RecordChange}, runLookups globals nested straight keyp p s = some (c, s') →
      Onward (fun s s' => ∀ way, s.onTheWay = keyp :: way → Lands globals straight keyp s s') s s' := by
  induction p with
  | rest p =>
    intro s s' c h
    obtain ⟨new, hlog, hnew⟩ := runProc_piece hn straight p h
    exact ⟨new, hlog, fun hclean _ hway => unhold_lands hway (hnew hclean)⟩
  | lookup env next ih =>
    intro s s' c h
    have hwrite : Onward (fun t t' => t' = t.write (.lookedUp keyp (globals t.env).keymapKeyToKeycode))
        (s.move globals env) _ := Unless.of_write rfl fun _ => rfl
    have hlooked : Onward (fun t s' => ∀ way, t.onTheWay = keyp :: way → ¬ Stale globals t.env keyp →
        Lands globals straight keyp t s') (s.move globals env) s' := by
      refine Unless.comp hwrite (ih h) fun hw hrest way hway hkeyp => ?_
      exact (hw ▸ Piece.write straight fun _ _ => owes_lookedUp hkeyp).lands (hrest way (hw ▸ hway))
    refine Unless.comp (move_onward s env) hlooked ?_
    rintro ⟨hmove, henv⟩ hrest way hway
    rw [hmove] at hrest
    exact (Piece.environment straight henv).lands
      (hrest way hway (henv keyp (mem_heldBack.mpr (.inr (.inr (hway ▸ List.mem_cons_self))))))
  | exec event keycode env next ih =>
    intro s s' c h
    obtain ⟨t, hnested, hrest⟩ := Option.bind_eq_some_iff.mp h
    refine Unless.comp (Unless.comp (move_piece straight s env) (exec_piece hn hnested) Piece.trans) (ih _ hrest) ?_
    exact fun hpiece hlands way hway => hpiece.lands (hlands way (hpiece.way.trans hway))

structure Passes (globals : σ → Globals) (straight : Bool) (keyp : MagicRecord) (s s' : MagicState σ) : Prop where
  way : s'.onTheWay = s.onTheWay
  sound : ∀ x, Sound globals x {keyp.fresh} s → Sound globals x 0 s'
  still : straight = false → s'.tappingKey = s.tappingKey ∧ s'.waitingBuffer = s.waitingBuffer
  owes : straight = false → ∀ x o, Covered o s → Owes globals x ({keyp.fresh} + o) s → Owes globals x o s'

theorem processRecord_passes (hn : NestedSteps globals nested) {c : RecordChange}
    (h : processRecord E globals nested straight keyp s = some (c, s')) :
    Onward (Passes globals straight keyp) s s' := by
  have hwrite : Onward (fun s s' => s' = (s.hold keyp).write (.processed keyp (globals s.env).keymapKeyToKeycode)) s _ :=
    Unless.of_write rfl fun _ => rfl
  have howes : ∀ x o, Owes globals x ({keyp.fresh} + o) s →
      Owes globals x o ((s.hold keyp).write (.processed keyp (globals s.env).keymapKeyToKeycode)) := by
    intro x o hs
    have hkeyp : ¬ Stale globals s.env keyp :=
      hs.owed keyp.fresh (Multiset.mem_add.mpr (.inl (Multiset.mem_singleton_self _)))
    refine ⟨fun r hr => hs.owed r (Multiset.mem_add.mpr (.inr hr)), fun r hr => ?_,
      faithful_lookup hs.faithful hkeyp (.inl rfl), ?_⟩
    · rcases List.mem_cons.mp hr with rfl | hr
      · exact hkeyp
      · exact hs.way r hr
    · have hissued : issued (s.log ++ [.processed keyp (globals s.env).keymapKeyToKeycode]) = issued s.log :=
        List.filterMap_append.trans (List.append_nil _)
      have hprocessed : processed (s.log ++ [.processed keyp (globals s.env).keymapKeyToKeycode]) =
          processed s.log ++ [keyp.fresh] := List.filterMap_append
      change ↑(issued (s.log ++ _)) + x = ↑(processed (s.log ++ _)) + o
      rw [hissued, hprocessed, hs.balance, ← Multiset.coe_add, Multiset.coe_singleton]
      abel
  refine Unless.comp hwrite (runLookups_lands hn straight keyp _ h) fun _ hlands => ?_
  have hland := hlands s.onTheWay rfl
  refine ⟨(List.cons.inj hland.way).2.symm, fun x hs => hland.sound x ?_, hland.still, fun hl x o ho hs => ?_⟩
  · have hown := hs.owes
    rw [add_assoc] at hown
    refine ⟨?_, hs.events, hs.presses⟩
    change Owes globals x (0 + s.tappingKey.kept + s.buffered) _
    rw [zero_add]
    exact howes x _ hown
  · exact hland.owes hl x o ho (howes x o hs)

theorem passRecord_passes (hn : NestedSteps globals nested)
    (h : passRecord E globals nested straight keyp s = some (k, s')) :
    Onward (Passes globals straight keyp) s s' ∧ ∃ c : RecordChange, k = keyp.change c.apply := by
  obtain ⟨⟨c, t⟩, hrun, heq⟩ := Option.map_eq_some_iff.mp h
  cases heq
  exact ⟨processRecord_passes hn hrun, c, rfl⟩

theorem apply_unsettled {c : RecordChange} {r : Record} (h : (c.apply r).Unsettled) : c.apply r = r := by
  cases c with
  | keep => rfl
  | released => cases h.2.1
  | reset =>
    rw [RecordChange.apply] at h ⊢
    split
    · rfl
    · rename_i hpressed
      rw [if_neg hpressed] at h
      exact absurd rfl h.1

theorem settled_apply {c : RecordChange} {r : Record} (h : ¬ r.Unsettled) : ¬ (c.apply r).Unsettled := fun hc =>
  h (apply_unsettled hc ▸ hc)

theorem not_unsettled_zero : ¬ MagicRecord.zero.Unsettled := fun h => h.1 rfl

/-- `process_record` of the tapping key, while another record may be on its way. -/
structure Taps (globals : σ → Globals) (s s' : MagicState σ) : Prop where
  way : s'.onTheWay = s.onTheWay
  buffer : s'.waitingBuffer = s.waitingBuffer
  tapping : ∃ c : RecordChange, s'.tappingKey = s.tappingKey.change c.apply
  owes : ∀ x o, Covered o s → Owes globals x ({s.tappingKey.fresh} + o) s → Owes globals x o s'

theorem passTappingKey_taps (hn : NestedSteps globals nested) (h : passTappingKey E globals nested s = some s') :
    Onward (Taps globals) s s' := by
  obtain ⟨⟨c, t⟩, hrun, rfl⟩ := Option.map_eq_some_iff.mp h
  obtain ⟨new, hlog, hnew⟩ := processRecord_passes hn hrun
  refine ⟨new, hlog, fun hclean => ?_⟩
  have hpasses := hnew hclean
  obtain ⟨hkey, hbuffer⟩ := hpasses.still rfl
  refine ⟨hpasses.way, hbuffer, ⟨c, ?_⟩, fun x o ho hs => (hpasses.owes rfl x o ho hs).of_same rfl rfl rfl⟩
  rw [← hkey]
  rfl

theorem holding_taps {run : MagicState σ → Option (MagicState σ)}
    (hrun : ∀ t, run (s.hold keyp) = some t → Onward (Taps globals) (s.hold keyp) t)
    (h : holding keyp run s = some s') :
    Onward (fun s s' => s'.onTheWay = s.onTheWay ∧ s'.waitingBuffer = s.waitingBuffer ∧
      (∃ c : RecordChange, s'.tappingKey = s.tappingKey.change c.apply) ∧
      ∀ x, Owes globals x (keyp.flight + {s.tappingKey.fresh} + s.buffered) s →
        Owes globals x (keyp.flight + s.buffered) s') s s' := by
  obtain ⟨t, ht, rfl⟩ := Option.map_eq_some_iff.mp h
  obtain ⟨new, hlog, hnew⟩ := hrun t ht
  refine ⟨new, hlog, fun hclean => ?_⟩
  have htaps := hnew hclean
  refine ⟨?_, htaps.buffer, htaps.tapping, fun x hs => ?_⟩
  · rw [MagicState.unhold, htaps.way]
    rfl
  · rw [add_assoc] at hs
    have hown := htaps.owes x (keyp.flight + s.buffered) ((covered_flight s keyp).add (covered_buffered (s.hold keyp))) ?_
    · exact hown.unhold
    · have hsum : keyp.flight + ({s.tappingKey.fresh} + s.buffered) =
          {s.tappingKey.fresh} + (keyp.flight + s.buffered) := by abel
      exact (hsum ▸ hs).hold hs.flight

theorem mem_modify {l : List MagicRecord} {i : Nat} {f : MagicRecord → MagicRecord} {q : MagicRecord}
    (hq : l[i]? = some q) (h : r ∈ l.modify i f) : r ∈ l ∨ r = f q := by
  obtain ⟨j, hj⟩ := List.mem_iff_getElem?.mp h
  rw [List.getElem?_modify] at hj
  obtain ⟨r', hr', heq⟩ := Option.map_eq_some_iff.mp hj
  split at heq
  · rename_i hij
    rw [← hij, hq] at hr'
    exact .inr (Option.some.inj hr' ▸ heq.symm)
  · exact .inl (heq ▸ List.mem_of_getElem? hr')

theorem map_fresh_modify {l : List MagicRecord} {i : Nat} {f : Record → Record} (hf : ∀ r, (f r).event = r.event)
    (hf' : ∀ r, (f r).keycode = r.keycode) :
    (l.modify i fun r => r.change f).map MagicRecord.fresh = l.map MagicRecord.fresh := by
  refine List.ext_getElem? fun j => ?_
  rw [List.getElem?_map, List.getElem?_modify, List.getElem?_map]
  cases l[j]? with
  | none => rfl
  | some r =>
    simp only [Option.map_eq_map, Option.map_some]
    split
    · rw [fresh_change (hf _) (hf' _)]
    · rfl

/-! ## `process_tapping` -/

theorem scanTap_steps (hn : NestedSteps globals nested) (hevent : ¬ s.tappingKey.IsNoEvent)
    (h : waitingBufferScanTap E globals nested s = some s') : Onward (Steps globals live pre 0 0) s s' := by
  unfold waitingBufferScanTap at h
  split at h
  · cases h
    exact Unless.of_same rfl .refl
  · rename_i hunsettled
    rw [not_or, Nat.not_lt, Nat.le_zero, Bool.not_eq_false] at hunsettled
    split at h
    · cases h
      exact Unless.of_same rfl .refl
    · rename_i i hfind
      let t : MagicState σ := { s with
        tappingKey := s.tappingKey.change fun r => r.setCount 1
        waitingBuffer := s.waitingBuffer.modify i fun r => r.change fun r => r.setCount 1 }
      have hfresh : t.waitingBuffer.map MagicRecord.fresh = s.waitingBuffer.map MagicRecord.fresh :=
        map_fresh_modify (fun _ => rfl) fun _ => rfl
      obtain ⟨hlt, hscanned, -⟩ := List.findIdx?_eq_some_iff_getElem.mp hfind
      obtain ⟨-, -, hup, -⟩ := of_decide_eq_true hscanned
      have hmem : ∀ r ∈ t.waitingBuffer, r ∈ s.waitingBuffer ∨
          r = s.waitingBuffer[i].change fun r => r.setCount 1 := fun r hr =>
        mem_modify (List.getElem?_eq_getElem hlt) hr
      obtain ⟨new, hlog, hnew⟩ := passTappingKey_taps (s := t) hn h
      refine ⟨new, hlog, fun hclean => ?_⟩
      have htaps := hnew hclean
      obtain ⟨c, htapping⟩ := htaps.tapping
      have hsettled : ¬ s'.tappingKey.Unsettled := by
        rw [htapping]
        exact settled_apply fun h => absurd h.2.2 Nat.one_ne_zero
      refine ⟨htaps.way, fun _ => by rw [htaps.buffer, hfresh], fun x _ hs => ⟨?_, ?_, ?_⟩⟩
      · have hown := htaps.owes x t.buffered (covered_buffered t) ?_
        · rw [MagicRecord.kept_settled hsettled, MagicState.buffered, htaps.buffer, zero_add, zero_add]
          exact hown
        · have howes := hs.owes
          rw [MagicRecord.kept_unsettled ⟨hevent, hunsettled.2, hunsettled.1⟩, zero_add, MagicState.buffered, ← hfresh]
            at howes
          exact howes.of_same rfl rfl rfl
      · intro r hr
        rcases hmem r (htaps.buffer ▸ hr) with hr | rfl
        · exact hs.events r hr
        · exact hs.events s.waitingBuffer[i] (List.getElem_mem hlt)
      · intro r hr hpressed
        rcases hmem r (htaps.buffer ▸ hr) with hr | rfl
        · exact hs.presses r hr hpressed
        · exact absurd (hup.symm.trans hpressed) Bool.false_ne_true

theorem setTapping_steps (hsettled : ¬ s.tappingKey.Unsettled) (hevent : ¬ keyp.IsNoEvent)
    (hpressed : keyp.event.pressed = true) :
    Steps globals live (keyp.event.pressed = true → keyp.tap.count = 0) keyp.flight 0 s (s.setTapping keyp) := by
  refine ⟨rfl, fun _ => rfl, fun x hcount hs => hs.setTapping ?_⟩
  rw [MagicRecord.kept_settled hsettled, MagicRecord.kept_unsettled ⟨hevent, hpressed, hcount hpressed⟩,
    MagicRecord.flight_event hevent, add_zero, zero_add]

theorem started_steps (live : Bool) (hn : NestedSteps globals nested) (hevent : ¬ keyp.IsNoEvent)
    (hpressed : keyp.event.pressed = true)
    (h : waitingBufferScanTap E globals nested (s.setTapping keyp) = some s') :
    Onward (fun s s' => ¬ s.tappingKey.Unsettled →
      Steps globals live (keyp.event.pressed = true → keyp.tap.count = 0) keyp.flight 0 s s') s s' := by
  obtain ⟨new, hlog, hnew⟩ := scanTap_steps (s := s.setTapping keyp) hn hevent h
  exact ⟨new, hlog, fun hclean hsettled => (setTapping_steps hsettled hevent hpressed).trans (hnew hclean)⟩

theorem hinted_steps (hn : NestedSteps globals nested) (hsettled : ¬ s.tappingKey.Unsettled)
    (hevent : ¬ keyp.IsNoEvent) (hpressed : keyp.event.pressed = true) {env : σ}
    (h : waitingBufferScanTap E globals nested ((s.setTapping keyp).move globals env) = some s') :
    Onward (Steps globals live (keyp.event.pressed = true → keyp.tap.count = 0) keyp.flight 0) s s' := by
  have hmove : Onward (Steps globals live (keyp.event.pressed = true → keyp.tap.count = 0) 0 0) (s.setTapping keyp)
      ((s.setTapping keyp).move globals env) := Unless.mono (move_piece false _ env) fun hpiece =>
    ⟨hpiece.way, fun _ => congrArg (List.map MagicRecord.fresh) (hpiece.still rfl).2, fun x _ hs => hpiece.sound x hs⟩
  obtain ⟨new, hlog, hnew⟩ := Unless.comp hmove (scanTap_steps hn hevent h) Steps.trans
  exact ⟨new, hlog, fun hclean => (setTapping_steps hsettled hevent hpressed).trans (hnew hclean)⟩

/-- What a call of `process_tapping` makes of the record: it stays on the way until it is finished. -/
def TapSteps (globals : σ → Globals) (live : Bool) (keyp : MagicRecord) (s : MagicState σ)
    (result : Bool × MagicRecord × MagicState σ) : Prop :=
  Onward (Steps globals live (keyp.event.pressed = true → keyp.tap.count = 0) keyp.flight
      (if result.1 = true then 0 else keyp.flight)) s result.2.2 ∧
    (result.1 = false → result.2.1.fresh = keyp.fresh ∧
      (result.2.1.event.pressed = true → result.2.1.tap.count = keyp.tap.count))

variable {result : Bool × MagicRecord × MagicState σ}

theorem left_steps : TapSteps globals live keyp s (false, keyp, s) :=
  ⟨Unless.of_same rfl .refl, fun _ => ⟨rfl, fun _ => rfl⟩⟩

theorem tick_steps (h : keyp.IsNoEvent) : TapSteps globals live keyp s (true, keyp, s) := by
  refine ⟨Unless.of_same rfl ?_, fun h => nomatch h⟩
  rw [MagicRecord.flight, if_pos h]
  exact .refl

theorem TapSteps.setTapping (hr : s.tappingKey.kept = r.kept)
    (h : TapSteps globals live keyp (s.setTapping r) result) : TapSteps globals live keyp s result := by
  obtain ⟨⟨new, hlog, hnew⟩, hleft⟩ := h
  refine ⟨⟨new, hlog, fun hclean => ?_⟩, hleft⟩
  have hsteps := hnew hclean
  exact ⟨hsteps.way, hsteps.buffer, fun x hp hs => hsteps.sound x hp (hs.setTapping (congrArg _ hr))⟩

theorem passed_steps (hn : NestedSteps globals nested) (hevent : ¬ keyp.IsNoEvent)
    (h : (passRecord E globals nested live keyp s).map (fun (k, t) => (true, k, t)) = some result) :
    TapSteps globals live keyp s result := by
  obtain ⟨⟨k, t⟩, hpass, rfl⟩ := Option.map_eq_some_iff.mp h
  obtain ⟨new, hlog, hnew⟩ := (passRecord_passes hn hpass).1
  refine ⟨⟨new, hlog, fun hclean => ?_⟩, fun h => nomatch h⟩
  have hpasses := hnew hclean
  refine ⟨hpasses.way, fun hl => by rw [(hpasses.still hl).2], fun x _ hs => hpasses.sound x ?_⟩
  rwa [MagicRecord.flight_event hevent] at hs

/-- The record is processed while the tapping key is settled, and the tapping key becomes one that is settled. -/
theorem replaced_steps (hn : NestedSteps globals nested) (hevent : ¬ keyp.IsNoEvent) {f : Record → Record}
    {g : MagicRecord → MagicRecord} (hfresh : (keyp.change f).fresh = keyp.fresh)
    (hsettled : ¬ s.tappingKey.Unsettled) (hg : ∀ c : RecordChange, ¬ (g ((keyp.change f).change c.apply)).Unsettled)
    (h : (passRecord E globals nested false (keyp.change f) s).map (fun (k, t) => (true, k, t.setTapping (g k))) =
      some result) : TapSteps globals live keyp s result := by
  obtain ⟨⟨k, t⟩, hpass, rfl⟩ := Option.map_eq_some_iff.mp h
  obtain ⟨⟨new, hlog, hnew⟩, c, rfl⟩ := passRecord_passes hn hpass
  refine ⟨⟨new, hlog, fun hclean => ?_⟩, fun h => nomatch h⟩
  have hpasses := hnew hclean
  obtain ⟨hkey, hbuffer⟩ := hpasses.still rfl
  refine ⟨hpasses.way, fun _ => congrArg (List.map MagicRecord.fresh) hbuffer, fun x _ hs => ?_⟩
  refine (hpasses.sound x ?_).setTapping ?_
  · rwa [MagicRecord.flight_event hevent, ← hfresh] at hs
  · rw [hkey, MagicRecord.kept_settled hsettled, MagicRecord.kept_settled (hg c)]
    rfl

theorem held_steps (hn : NestedSteps globals nested) (hunsettled : s.tappingKey.Unsettled)
    (h : (holding keyp (passTappingKey E globals nested) s).map (fun t => (false, keyp, t.setTapping .zero)) =
      some result) : TapSteps globals live keyp s result := by
  obtain ⟨t, hpass, rfl⟩ := Option.map_eq_some_iff.mp h
  obtain ⟨new, hlog, hnew⟩ := holding_taps (fun t ht => passTappingKey_taps hn ht) hpass
  refine ⟨⟨new, hlog, fun hclean => ?_⟩, fun _ => ⟨rfl, fun _ => rfl⟩⟩
  obtain ⟨hway, hbuffer, -, howes⟩ := hnew hclean
  refine ⟨hway, fun _ => congrArg (List.map MagicRecord.fresh) hbuffer, fun x _ hs => ⟨?_, ?_, ?_⟩⟩
  · have hown := howes x (MagicRecord.kept_unsettled hunsettled ▸ hs.owes)
    have hbuffered : t.buffered = s.buffered := buffered_congr hbuffer
    change Owes globals x (keyp.flight + MagicRecord.zero.kept + t.buffered) _
    rw [MagicRecord.kept_settled not_unsettled_zero, add_zero, hbuffered]
    exact hown.of_same rfl rfl rfl
  · exact fun r hr => hs.events r (hbuffer ▸ hr)
  · exact fun r hr => hs.presses r (hbuffer ▸ hr)

theorem processUnsettled_steps (hn : NestedSteps globals nested) (hu : s.tappingKey.Unsettled)
    (hevent : ¬ keyp.IsNoEvent) (h : processUnsettled E globals nested live keyp s = some result) :
    TapSteps globals live keyp s result := by
  simp only [processUnsettled] at h
  split at h
  · -- The first tap.
    rename_i htap
    obtain ⟨t, hpass, rfl⟩ := Option.map_eq_some_iff.mp h
    have hfresh : (s.tappingKey.change fun r => r.setCount 1).fresh = s.tappingKey.fresh := fresh_change rfl rfl
    obtain ⟨new, hlog, hnew⟩ := holding_taps (fun t ht => passTappingKey_taps hn ht) hpass
    refine ⟨⟨new, hlog, fun hclean => ?_⟩, fun _ => ⟨fresh_change rfl rfl, fun hpressed => ?_⟩⟩
    · obtain ⟨hway, hbuffer, ⟨c, hkey⟩, howes⟩ := hnew hclean
      refine ⟨hway, fun _ => congrArg (List.map MagicRecord.fresh) hbuffer, fun x _ hs => ⟨?_, ?_, ?_⟩⟩
      · have howes₀ := hs.owes
        rw [MagicRecord.kept_unsettled hu, ← hfresh] at howes₀
        have hbuffered : t.buffered = s.buffered := buffered_congr hbuffer
        change Owes globals x (keyp.flight + t.tappingKey.kept + t.buffered) t
        rw [hkey, MagicRecord.kept_settled (settled_apply fun h => Nat.one_ne_zero h.2.2), add_zero, hbuffered]
        exact howes x (howes₀.of_same rfl rfl rfl)
      · exact fun r hr => hs.events r (hbuffer ▸ hr)
      · exact fun r hr => hs.presses r (hbuffer ▸ hr)
    · exact absurd (htap.2.symm.trans hpressed) Bool.false_ne_true
  · split at h
    · exact held_steps hn hu h
    · split at h
      · split at h
        · cases h
          exact left_steps
        · exact passed_steps hn hevent h
      · split at h
        · refine TapSteps.setTapping (kept_setInterrupted _).symm ?_
          split at h
          · exact held_steps hn hu h
          · cases h
            exact left_steps
        · cases h
          exact left_steps

theorem passSynthesized_still (hn : NestedSteps globals nested) {time : UInt16}
    (h : holding keyp (passSynthesized E globals nested time) s = some s') :
    Onward (fun s s' => s'.onTheWay = s.onTheWay ∧ s'.tappingKey = s.tappingKey ∧ s'.waitingBuffer = s.waitingBuffer ∧
      ∀ x, Sound globals x keyp.flight s → Sound globals x keyp.flight s') s s' := by
  obtain ⟨t, ht, rfl⟩ := Option.map_eq_some_iff.mp h
  obtain ⟨⟨c, t'⟩, hrun, heq⟩ := Option.map_eq_some_iff.mp ht
  cases heq
  obtain ⟨new, hlog, hnew⟩ := runProc_piece hn false _ hrun
  refine ⟨new, hlog, fun hclean => ?_⟩
  have hpiece := hnew hclean
  obtain ⟨hkey, hbuffer⟩ := hpiece.still rfl
  refine ⟨congrArg List.tail hpiece.way, hkey, hbuffer, fun x hs => ⟨?_, ?_, ?_⟩⟩
  · have hcovered : Covered (keyp.flight + s.tappingKey.kept + s.buffered) (s.hold keyp) :=
      ((covered_flight s keyp).add (covered_kept (s.hold keyp))).add (covered_buffered (s.hold keyp))
    have hkeyp : ¬ Stale globals s.env keyp := (add_assoc keyp.flight _ _ ▸ hs.owes).flight
    have hown := (hpiece.owes rfl x _ hcovered (hs.owes.hold hkeyp)).unhold
    change Owes globals x (keyp.flight + t'.tappingKey.kept + t'.buffered) _
    rw [hkey, buffered_congr hbuffer]
    exact hown
  · exact fun r hr => hs.events r (hbuffer ▸ hr)
  · exact fun r hr => hs.presses r (hbuffer ▸ hr)

theorem startNewTap_steps (hn : NestedSteps globals nested) (hsettled : ¬ s.tappingKey.Unsettled)
    (hevent : ¬ keyp.IsNoEvent) (hpressed : keyp.event.pressed = true)
    (h : startNewTap E globals nested keyp s = some result) : TapSteps globals live keyp s result := by
  obtain ⟨t, hreleased, hstart⟩ := Option.bind_eq_some_iff.mp h
  obtain ⟨s', hscan, rfl⟩ := Option.map_eq_some_iff.mp hstart
  refine ⟨?_, fun h => nomatch h⟩
  split at hreleased
  · refine Unless.comp (passSynthesized_still hn hreleased) (started_steps live hn hevent hpressed hscan) ?_
    rintro ⟨hway, hkey, hbuffer, hsound⟩ hsteps
    have hrest := hsteps (by rw [hkey]; exact hsettled)
    refine ⟨hrest.way.trans hway, fun hl => ?_, fun x hp hs => hrest.sound x hp (hsound x hs)⟩
    rw [hrest.buffer hl, hbuffer]
  · cases hreleased
    exact Unless.mono (started_steps live hn hevent hpressed hscan) fun hsteps => hsteps hsettled

theorem processSettled_steps (hn : NestedSteps globals nested) {within : Bool} (hcount : s.tappingKey.tap.count ≠ 0)
    (hevent : ¬ keyp.IsNoEvent) (h : processSettled E globals nested live within keyp s = some result) :
    TapSteps globals live keyp s result := by
  have hsettled : ¬ s.tappingKey.Unsettled := fun h => hcount h.2.2
  simp only [processSettled] at h
  split at h
  · refine replaced_steps (g := fun k => if within = true then k else .zero) hn hevent (fresh_change rfl rfl) hsettled
      (fun c => ?_) h
    split
    · exact settled_apply fun h => hcount h.2.2
    · exact not_unsettled_zero
  · split at h
    · rename_i hstart
      exact startNewTap_steps hn hsettled hevent hstart.2 h
    · exact passed_steps hn hevent h

theorem processReleased_steps (hn : NestedSteps globals nested) (hr : s.tappingKey.event.pressed = false)
    (hevent : ¬ keyp.IsNoEvent) (h : processReleased E globals nested live keyp s = some result) :
    TapSteps globals live keyp s result := by
  have hsettled : ¬ s.tappingKey.Unsettled := fun h => Bool.false_ne_true (hr.symm.trans h.2.1)
  simp only [processReleased] at h
  split at h
  · rename_i hpressed
    split at h
    · split at h
      · rename_i hquick
        have hcount : s.tappingKey.tap.count ≠ 0 := Nat.ne_of_gt hquick.2.2
        split at h
        · exact replaced_steps (f := fun r => { r with tap := { s.tappingKey.tap with count := s.tappingKey.tap.count + 1 } })
            (g := id) hn hevent (fresh_change rfl rfl) hsettled
            (fun c => settled_apply fun h => Nat.succ_ne_zero _ h.2.2) h
        · exact replaced_steps (f := fun r => { r with tap := s.tappingKey.tap }) (g := id) hn hevent
            (fresh_change rfl rfl) hsettled (fun c => settled_apply fun h => hcount h.2.2) h
      · cases h
        exact ⟨Unless.of_same rfl (setTapping_steps hsettled hevent hpressed), fun h => nomatch h⟩
    · split at h
      · obtain ⟨t, hscan, rfl⟩ := Option.map_eq_some_iff.mp h
        exact ⟨Unless.mono (started_steps live hn hevent hpressed hscan) fun hsteps => hsteps hsettled, fun h => nomatch h⟩
      · exact TapSteps.setTapping (kept_setInterrupted _).symm (passed_steps hn hevent h)
  · exact passed_steps hn hevent h

theorem processTapping_steps (hn : NestedSteps globals nested)
    (h : processTapping E globals nested live keyp s = some result) : TapSteps globals live keyp s result := by
  simp only [processTapping] at h
  split at h
  · rename_i hidle
    have hsettled : ¬ s.tappingKey.Unsettled := fun h => h.1 hidle
    split at h
    · rename_i htick
      cases h
      exact tick_steps htick
    · rename_i hevent
      split at h
      · rename_i hstart
        obtain ⟨t, hscan, rfl⟩ := Option.map_eq_some_iff.mp h
        exact ⟨hinted_steps hn hsettled hevent hstart.1 hscan, fun h => nomatch h⟩
      · exact passed_steps hn hevent h
  · rename_i hkey
    split at h
    · rename_i hpressed
      split at h
      · split at h
        · rename_i htick
          cases h
          exact tick_steps htick
        · rename_i hevent
          split at h
          · rename_i hcount
            exact processUnsettled_steps hn ⟨hkey, hpressed, hcount⟩ hevent h
          · rename_i hcount
            exact processSettled_steps hn hcount hevent h
      · split at h
        · rename_i hcount
          exact held_steps hn ⟨hkey, hpressed, hcount⟩ h
        · rename_i hcount
          split at h
          · rename_i htick
            cases h
            exact tick_steps htick
          · rename_i hevent
            exact processSettled_steps hn hcount hevent h
    · rename_i hreleased
      rw [Bool.not_eq_true] at hreleased
      split at h
      · split at h
        · rename_i htick
          cases h
          exact tick_steps htick
        · rename_i hevent
          exact processReleased_steps hn hreleased hevent h
      · cases h
        refine TapSteps.setTapping ?_ left_steps
        rw [MagicRecord.kept_settled fun h => Bool.false_ne_true (hreleased.symm.trans h.2.1),
          MagicRecord.kept_settled not_unsettled_zero]

/-! ## The buffer, nested calls and runs -/

theorem Owes.cancel {y : Multiset MagicRecord} (h : Owes globals (x + y) (y + o) s) : Owes globals x o s := by
  refine ⟨fun r hr => h.owed r (Multiset.mem_add.mpr (.inr hr)), h.way, h.faithful, ?_⟩
  have hbalance := h.balance
  rw [← add_assoc, add_comm y o, ← add_assoc] at hbalance
  exact add_right_cancel hbalance

theorem Sound.front {rest : List MagicRecord} (h : Sound globals x 0 s) (hbuffer : s.waitingBuffer = keyp :: rest) :
    Sound globals (x + keyp.flight) keyp.flight s ∧ keyp.flight = {keyp.fresh} := by
  have hflight : keyp.flight = {keyp.fresh} := MagicRecord.flight_event (h.events keyp (hbuffer ▸ List.mem_cons_self))
  refine ⟨⟨⟨fun r hr => ?_, h.owes.way, h.owes.faithful, ?_⟩, h.events, h.presses⟩, hflight⟩
  · rw [add_assoc, hflight] at hr
    rcases Multiset.mem_add.mp hr with hr | hr
    · rw [Multiset.mem_singleton.mp hr]
      refine h.owes.owed _ (Multiset.mem_add.mpr (.inr ?_))
      exact Multiset.mem_coe.mpr (List.mem_map_of_mem (hbuffer ▸ List.mem_cons_self))
    · rw [← zero_add s.tappingKey.kept] at hr
      exact h.owes.owed r hr
  · have hbalance := h.owes.balance
    rw [zero_add] at hbalance
    rw [← add_assoc, hbalance]
    abel

theorem processWaitingBuffer_steps (hn : NestedSteps globals nested) (n : Nat) :
    ∀ {s s' : MagicState σ}, processWaitingBuffer E globals nested n s = some s' →
      Onward (Steps globals true True 0 0) s s' := by
  induction n with
  | zero =>
    intro s s' h
    rw [processWaitingBuffer] at h
    split at h
    · cases h
      exact Unless.of_same rfl .refl
    · cases h
  | succ n ih =>
    intro s s' h
    rw [processWaitingBuffer] at h
    split at h
    · cases h
      exact Unless.of_same rfl .refl
    · rename_i keyp rest hbuffer
      obtain ⟨⟨finished, k, t⟩, htap, hrest⟩ := Option.bind_eq_some_iff.mp h
      obtain ⟨htapped, hleft⟩ := processTapping_steps hn htap
      have hcount : ∀ {x}, Sound globals x 0 s → keyp.event.pressed = true → keyp.tap.count = 0 := fun hs =>
        hs.presses keyp (hbuffer ▸ List.mem_cons_self)
      cases finished with
      | true =>
        change processWaitingBuffer E globals nested n { t with waitingBuffer := t.waitingBuffer.tail } = some s'
          at hrest
        obtain ⟨new, hlog, hnew⟩ := htapped
        have hpop : Onward (Steps globals true True 0 0) s { t with waitingBuffer := t.waitingBuffer.tail } := by
          refine ⟨new, hlog, fun hclean => ?_⟩
          have hsteps := hnew hclean
          refine ⟨hsteps.way, nofun, fun x _ hs => ?_⟩
          obtain ⟨hfront, hflight⟩ := hs.front hbuffer
          have ht := hsteps.sound _ (hcount hs) hfront
          refine ⟨?_, fun r hr => ht.events r (List.mem_of_mem_tail hr),
            fun r hr => ht.presses r (List.mem_of_mem_tail hr)⟩
          have hbuffered : t.buffered = {keyp.fresh} + ↑(t.waitingBuffer.tail.map MagicRecord.fresh) := by
            rw [MagicState.buffered, hsteps.buffer rfl, hbuffer, List.map_tail, hsteps.buffer rfl, hbuffer]
            rfl
          have howes : Owes globals (x + keyp.flight) (0 + t.tappingKey.kept + t.buffered) t := ht.owes
          have hsum : 0 + t.tappingKey.kept + t.buffered = {keyp.fresh} +
              (0 + t.tappingKey.kept + ↑(t.waitingBuffer.tail.map MagicRecord.fresh)) := by
            rw [hbuffered]
            abel
          rw [hflight, hsum] at howes
          exact howes.cancel.of_same rfl rfl rfl
        exact Unless.comp hpop (ih hrest) Steps.trans
      | false =>
        cases hrest
        obtain ⟨hfresh, hpress⟩ := hleft rfl
        obtain ⟨new, hlog, hnew⟩ := htapped
        refine ⟨new, hlog, fun hclean => ?_⟩
        have hsteps := hnew hclean
        refine ⟨hsteps.way, nofun, fun x _ hs => ?_⟩
        obtain ⟨hfront, hflight⟩ := hs.front hbuffer
        have ht := hsteps.sound _ (hcount hs) hfront
        have hset : (t.waitingBuffer.set 0 k).map MagicRecord.fresh = t.waitingBuffer.map MagicRecord.fresh := by
          rw [List.map_set, hfresh, hsteps.buffer rfl, hbuffer]
          rfl
        refine ⟨?_, fun r hr => ?_, fun r hr => ?_⟩
        · have howes : Owes globals (x + keyp.flight) (keyp.flight + t.tappingKey.kept + t.buffered) t := ht.owes
          change Owes globals x (0 + t.tappingKey.kept + ↑((t.waitingBuffer.set 0 k).map MagicRecord.fresh)) _
          rw [hset, zero_add]
          rw [add_assoc] at howes
          exact howes.cancel.of_same rfl rfl rfl
        · rcases List.mem_or_eq_of_mem_set hr with hr | rfl
          · exact ht.events r hr
          · intro hevent
            have htype : r.event.type = keyp.event.type := congrArg (fun r => r.event.type) hfresh
            exact hs.events keyp (hbuffer ▸ List.mem_cons_self) (htype.symm.trans hevent)
        · rcases List.mem_or_eq_of_mem_set hr with hr | rfl
          · exact ht.presses r hr
          · intro hpressed
            have hdown : r.event.pressed = keyp.event.pressed := congrArg (fun r => r.event.pressed) hfresh
            exact (hpress hpressed).trans (hcount hs (hdown.symm.trans hpressed))

theorem keepRecord_steps (E : MagicEnv σ) (k : MagicRecord) (s : MagicState σ) :
    Onward (Steps globals true (k.event.pressed = true → k.tap.count = 0) k.flight 0) s (keepRecord E globals k s) := by
  rw [keepRecord]
  split
  · rename_i htick
    rw [MagicRecord.flight, if_pos htick]
    exact Unless.of_same rfl .refl
  · rename_i hevent
    split
    · have hwrite : Onward (fun _ _ => False) s { s.write .overflow with tappingKey := .zero, waitingBuffer := [] } :=
        Unless.of_write rfl fun hclean => hclean rfl
      exact Unless.comp hwrite (move_onward _ _) fun hfalse _ => hfalse.elim
    · refine Unless.of_same rfl ⟨rfl, nofun, fun x hcount hs => ⟨?_, fun r hr => ?_, fun r hr => ?_⟩⟩
      · have hsum : k.flight + s.tappingKey.kept + s.buffered = 0 + s.tappingKey.kept +
            (s.buffered + {k.fresh}) := by
          rw [MagicRecord.flight_event hevent]
          abel
        have howes := (hsum ▸ hs.owes : Owes globals x _ s)
        change Owes globals x (0 + s.tappingKey.kept + ↑((s.waitingBuffer ++ [k]).map MagicRecord.fresh)) _
        rw [List.map_append, ← Multiset.coe_add]
        exact howes.of_same rfl rfl rfl
      · rcases List.mem_append.mp hr with hr | hr
        · exact hs.events r hr
        · rw [List.mem_singleton.mp hr]
          exact hevent
      · rcases List.mem_append.mp hr with hr | hr
        · exact hs.presses r hr
        · rw [List.mem_singleton.mp hr]
          exact hcount

theorem issued_steps (hraw : keyp.fresh = keyp) (s : MagicState σ) :
    Onward (Steps globals true True 0 keyp.flight) s
      (if keyp.IsNoEvent then s else (s.write (.issued keyp)).check globals [keyp]) := by
  split
  · rename_i htick
    rw [MagicRecord.flight, if_pos htick]
    exact Unless.of_same rfl .refl
  · rename_i hevent
    have hwrite : Onward (fun s s' => s' = s.write (.issued keyp)) s _ := Unless.of_write rfl fun _ => rfl
    refine Unless.comp hwrite (check_onward _ [keyp]) ?_
    rintro hw ⟨heq, hkeyp⟩
    rw [heq]
    rw [MagicRecord.flight_event hevent, hraw]
    refine ⟨rfl, nofun, fun x _ hs => ?_⟩
    refine ⟨⟨fun r hr => ?_, hs.owes.way, fun r keycode hr => ?_, ?_⟩, hs.events, hs.presses⟩
    · rw [add_assoc] at hr
      rcases Multiset.mem_add.mp hr with hr | hr
      · rw [Multiset.mem_singleton.mp hr]
        exact hkeyp keyp List.mem_cons_self
      · refine hs.owes.owed r ?_
        rw [zero_add]
        exact hr
    · refine hs.owes.faithful r keycode (hr.imp (fun hr => ?_) fun hr => ?_)
      · exact (List.mem_append.mp hr).resolve_right (by simp)
      · exact (List.mem_append.mp hr).resolve_right (by simp)
    · have hbalance := hs.owes.balance
      have hissued : issued (s.log ++ [.issued keyp]) = issued s.log ++ [keyp] := List.filterMap_append
      have hprocessed : processed (s.log ++ [.issued keyp]) = processed s.log :=
        List.filterMap_append.trans (List.append_nil _)
      change ↑(issued (s.log ++ _)) + x = ↑(processed (s.log ++ _)) + ({keyp} + s.tappingKey.kept + s.buffered)
      rw [hissued, hprocessed, ← Multiset.coe_add, Multiset.coe_singleton, add_right_comm, hbalance]
      abel

theorem action_steps (hn : NestedSteps globals nested) {rounds : Nat} (hraw : keyp.fresh = keyp)
    (h : actionTappingProcess E globals nested rounds keyp s = some s') : Onward (Steps globals true True 0 0) s s' := by
  obtain ⟨⟨finished, k, t⟩, htap, hrest⟩ := Option.bind_eq_some_iff.mp h
  obtain ⟨htapped, hleft⟩ := processTapping_steps hn htap
  have hcount : keyp.event.pressed = true → keyp.tap.count = 0 := fun _ => congrArg (fun r => r.tap.count) hraw.symm
  have hfirst : Onward (Steps globals true True 0 (if finished = true then 0 else keyp.flight)) s t := by
    refine Unless.comp (issued_steps hraw s) htapped fun hin hout => ?_
    exact ⟨hout.way.trans hin.way, nofun, fun x _ hs => hout.sound x hcount (hin.sound x trivial hs)⟩
  cases finished with
  | true => exact Unless.comp hfirst (processWaitingBuffer_steps hn _ hrest) Steps.trans
  | false =>
    obtain ⟨hfresh, hpress⟩ := hleft rfl
    refine Unless.comp (Unless.comp hfirst (keepRecord_steps E k t) fun hin hkeep => ?_)
      (processWaitingBuffer_steps hn _ hrest) Steps.trans
    refine ⟨hkeep.way.trans hin.way, nofun, fun x _ hs => hkeep.sound x (fun hpressed => ?_) ?_⟩
    · have hdown : k.event.pressed = keyp.event.pressed := congrArg (fun r => r.event.pressed) hfresh
      exact (hpress hpressed).trans (hcount (hdown.symm.trans hpressed))
    · rw [MagicRecord.flight_congr hfresh]
      exact hin.sound x trivial hs

theorem exec_steps (E : MagicEnv σ) (fuel : Nat) : NestedSteps globals (execTapping E globals fuel) := by
  induction fuel with
  | zero =>
    intro event keycode s s' h
    cases h
  | succ fuel ih =>
    intro event keycode s s' h
    exact action_steps ih rfl h

theorem run_steps (fuel : Nat) : ∀ {steps : List (TapStep σ)} {s s' : MagicState σ},
    runTapping E globals fuel s steps = some s' → Onward (Steps globals true True 0 0) s s' := by
  intro steps
  induction steps with
  | nil =>
    intro s s' h
    cases h
    exact Unless.of_same rfl .refl
  | cons step steps ih =>
    intro s s' h
    obtain ⟨t, hstep, hrest⟩ := Option.bind_eq_some_iff.mp h
    refine Unless.comp ?_ (ih hrest) Steps.trans
    cases step with
    | event e keycode => exact exec_steps E fuel e keycode s t hstep
    | environment change =>
      cases hstep
      exact Unless.mono (move_piece true s _) fun hpiece => ⟨hpiece.way, nofun, fun x _ hs => hpiece.sound x hs⟩

/-- Each record that comes in has been passed to `process_record` once, as the keycode that it was issued with, or is
held: unless the magic position loses the keycode of a record that is held back, the waiting buffer overflows, or
`process_record` calls `action_exec` for a record that is still held. -/
theorem keeps_keycode (E : MagicEnv σ) (globals : σ → Globals) (env : σ) (fuel : Nat) (steps : List (TapStep σ))
    (s : MagicState σ) (h : runTapping E globals fuel (.initial env) steps = some s)
    (hkept : ∀ e ∈ s.log, e.isAccident = false) :
    (issued s.log).Perm (processed s.log ++ s.held.map MagicRecord.fresh) ∧ Faithful s.log := by
  have hstart : Sound globals 0 0 (MagicState.initial env) := by
    refine ⟨⟨fun r hr => ?_, nofun, fun r keycode hr => hr.elim nofun nofun, rfl⟩, nofun, nofun⟩
    exact absurd hr (Multiset.notMem_zero r)
  have hsound := (Unless.of_clean (run_steps fuel h) fun e he => by rw [hkept e he]; exact nofun).sound 0 trivial hstart
  refine ⟨Multiset.coe_eq_coe.mp ?_, hsound.owes.faithful⟩
  have hheld : s.tappingKey.kept + s.buffered = ↑(s.held.map MagicRecord.fresh) := by
    rw [MagicState.held, List.map_append, ← Multiset.coe_add, MagicRecord.kept, MagicState.buffered]
    split <;> rfl
  have hbalance := hsound.owes.balance
  rwa [add_zero, zero_add, hheld, Multiset.coe_add] at hbalance

end Keeps

/-! ## A board whose magic keys are mod-taps -/

/-- The keys from `QK_MOD_TAP` to `QK_MOD_TAP_MAX` are tap-hold keys, with nothing behind `process_record`. -/
def magicBoard : MagicEnv Globals where
  isTapRecord g r := decide (AtMagic r ∧ 0x2000 ≤ g.keymapKeyToKeycode ∧ g.keymapKeyToKeycode ≤ 0x3FFF)
  tappingTerm _ _ := 200
  quickTapTerm _ _ := 200
  permissiveHold _ _ := false
  holdOnOtherKeyPress _ _ := false
  layerSwitchGetAction _ _ := 0
  processRecordTapHint g _ := g
  processRecord _ g := .done .keep g
  clearKeyboard g := g
  issued g _ := g.magicKeycodeOverride
  lookups _ g := .lookup g (.rest (.done .keep g))
  lookups_erase _ _ := rfl

/-- `vial_keycode_down` and `vial_keycode_up` of a keycode above `QK_MODS_MAX`. -/
def vialKeycode (keycode time : UInt16) (pressed : Bool) : List (TapStep Globals) :=
  [.environment fun g => { g with magicKeycodeOverride := keycode }, .event (Dance.magicEvent time pressed) 0]

def magicRecord (keycode time : UInt16) (pressed : Bool) : MagicRecord :=
  ⟨.raw (Dance.magicEvent time pressed) 0, keycode⟩

/-- `LSFT_T(KC_A)` is held while another key is tapped; then `LSFT_T(KC_B)` is tapped. -/
def heldThenTapped : List (TapStep Globals) :=
  vialKeycode 0x2204 1 true ++ [.key 1 51 true, .tick 301, .key 1 320 false] ++ vialKeycode 0x2204 351 false ++
    vialKeycode 0x2205 400 true ++ vialKeycode 0x2205 450 false

theorem keeps_keycode_held : ∃ s, runTapping magicBoard id 1 (.initial ⟨false, 0⟩) heldThenTapped = some s ∧
    (processed s.log).Perm [magicRecord 0x2204 1 true, ⟨.raw ⟨⟨0, 1⟩, 51, .key, true⟩ 0, 0x2204⟩,
      ⟨.raw ⟨⟨0, 1⟩, 320, .key, false⟩ 0, 0x2204⟩, magicRecord 0x2204 351 false, magicRecord 0x2205 400 true,
      magicRecord 0x2205 450 false] ∧ Faithful s.log := by
  obtain ⟨s, hs, hrun⟩ := (Option.any_eq_true _ _).mp (by decide +kernel :
    ((runTapping magicBoard id 1 (.initial ⟨false, 0⟩) heldThenTapped).any
      fun s => decide ((∀ e ∈ s.log, e.isAccident = false) ∧ s.held = [] ∧
        issued s.log = [magicRecord 0x2204 1 true, ⟨.raw ⟨⟨0, 1⟩, 51, .key, true⟩ 0, 0x2204⟩,
          ⟨.raw ⟨⟨0, 1⟩, 320, .key, false⟩ 0, 0x2204⟩, magicRecord 0x2204 351 false, magicRecord 0x2205 400 true,
          magicRecord 0x2205 450 false])) = true)
  obtain ⟨hclean, hheld, hissued⟩ := of_decide_eq_true hrun
  obtain ⟨hperm, hfaithful⟩ := keeps_keycode _ _ _ _ _ s hs hclean
  rw [hheld, hissued, List.map_nil, List.append_nil] at hperm
  exact ⟨s, hs, hperm.symm, hfaithful⟩

/-- `LSFT_T(KC_A)` goes down, and within its term `MO(1)`: as the term is over, `MO(1)` is what is processed. -/
theorem second_keycode_for_first : ∃ s, runTapping magicBoard id 1 (.initial ⟨false, 0⟩)
    (vialKeycode 0x2204 1 true ++ vialKeycode 0x5221 51 true ++ [.tick 301]) = some s ∧ ¬ Faithful s.log := by
  obtain ⟨s, hs, hmem⟩ := (Option.any_eq_true _ _).mp (by decide +kernel :
    ((runTapping magicBoard id 1 (.initial ⟨false, 0⟩)
      (vialKeycode 0x2204 1 true ++ vialKeycode 0x5221 51 true ++ [.tick 301])).any
      fun s => decide (.processed ⟨⟨Dance.magicEvent 1 true, ⟨true, 0⟩, 0⟩, 0x2204⟩ 0x5221 ∈ s.log)) = true)
  refine ⟨s, hs, fun hfaithful => ?_⟩
  exact absurd (hfaithful _ _ (.inl (of_decide_eq_true hmem)) (by decide)) (by decide)

end MagicTapping
end Keys
end VialQmk
