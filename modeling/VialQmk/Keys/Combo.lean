import Mathlib.Algebra.Order.Ring.Nat
import VialQmk.Keys.Tapping

/-!
# Keys.Combo

Combos (`process_combo.c`).

A press of a combo key is kept back in `key_buffer`. When all keys of a combo are down it is prepared in the ring
`combo_buffer`, and the next release, other key or timeout applies the prepared combos: the last key of each turns
into the press of its output, its other keys into ticks, and what is left in `key_buffer` is handed on.

* `processSingleCombo`, `processCombo`, `comboTask`, `comboDisable` follow the functions of the source.
* Whatever runs behind `action_tapping_process` and `process_combo_event` is a parameter, `handOn`. It may call
  `process_combo` again.
* The state of a combo is a bit vector as wide as `combo_t` has it.
-/

namespace VialQmk
namespace Keys

def qkComboOn : Nat := 0x7C50
def qkComboOff : Nat := 0x7C51
def qkComboToggle : Nat := 0x7C52

/-- The constant part of a `combo_t`: the keys up to `COMBO_END`, and the output. -/
structure Combo where
  keys : List Nat
  keycode : Nat
deriving DecidableEq, Repr, Inhabited

structure ComboFlags (w : Nat) where
  disabled : Bool
  active : Bool
  state : BitVec w
deriving DecidableEq, Repr

structure QueuedRecord where
  record : Record
  keycode : Nat
  comboIndex : Option Nat
deriving DecidableEq, Repr

inductive ComboEntry where
  /-- A key event comes in. -/
  | keyDown (keycode : Nat)
  | keyUp (keycode : Nat)
  /-- A press is kept back. -/
  | consumed (q : QueuedRecord)
  /-- A combo is activated and takes these presses. -/
  | activated (index : Nat) (absorbed : List QueuedRecord)
  /-- `action_tapping_process` is given a record of the buffer. -/
  | tapping (q : QueuedRecord)
  /-- `action_tapping_process` is given the release of an output. -/
  | released (index keycode : Nat)
  | comboEvent (index : Nat) (pressed : Bool)
deriving DecidableEq, Repr

structure ComboConfig where
  combos : List Combo
  /-- `get_combo_term`. -/
  term : Nat → Nat
  keyBufferLength : Nat
  comboBufferLength : Nat
  /-- `COMBO_STRICT_TIMER`. -/
  strictTimer : Bool

structure ComboState (w : Nat) where
  flags : Nat → ComboFlags w
  keyBuffer : List QueuedRecord
  /-- The static `key_buffer_next` of `dump_key_buffer`. -/
  keyBufferNext : Nat
  /-- The entries of the ring from `combo_buffer_read` up to `combo_buffer_write`. -/
  comboBuffer : List Nat
  longestTerm : Nat
  timer : Nat
  enabled : Bool
  log : List ComboEntry

def ComboFlags.initial (w : Nat) : ComboFlags w := ⟨false, false, 0⟩

def ComboState.initial (w : Nat) : ComboState w where
  flags _ := .initial w
  keyBuffer := []
  keyBufferNext := 0
  comboBuffer := []
  longestTerm := 0
  timer := 0
  enabled := true
  log := []

variable {w : Nat}

def ComboState.write (s : ComboState w) (e : ComboEntry) : ComboState w := { s with log := s.log ++ [e] }

def ComboState.modifyFlags (s : ComboState w) (index : Nat) (f : ComboFlags w → ComboFlags w) : ComboState w :=
  { s with flags := fun i => if i = index then f (s.flags i) else s.flags i }

def keyStateDown (state : BitVec w) (keyIndex : Nat) : BitVec w := state ||| (1#w <<< keyIndex)

def keyStateUp (state : BitVec w) (keyIndex : Nat) : BitVec w := state &&& ~~~(1#w <<< keyIndex)

def allComboKeysAreDown (state : BitVec w) (keyCount : Nat) : Bool := 2 ^ keyCount - 1 = state.toNat

def onlyOneKeyIsDown (state : BitVec w) : Bool := state &&& (state - 1) = 0

def keyNotYetReleased (state : BitVec w) (keyIndex : Nat) : Bool := state.getLsbD keyIndex

def findKeyIndexAndCount (keycode : Nat) : List Nat → Nat → Option Nat → Option Nat × Nat
  | [], keyCount, keyIndex => (keyIndex, keyCount)
  | key :: keys, keyCount, keyIndex =>
    findKeyIndexAndCount keycode keys (keyCount + 1) (if keycode = key then some keyCount else keyIndex)

def ComboFlags.activate (f : ComboFlags w) : ComboFlags w := { f with active := true }
def ComboFlags.deactivate (f : ComboFlags w) : ComboFlags w := { f with active := false }
def ComboFlags.disable (f : ComboFlags w) : ComboFlags w := { f with disabled := true }
def ComboFlags.resetState (f : ComboFlags w) : ComboFlags w := { f with disabled := false, state := 0 }
def ComboFlags.keyDown (keyIndex : Nat) (f : ComboFlags w) : ComboFlags w :=
  { f with state := keyStateDown f.state keyIndex }
def ComboFlags.keyUp (keyIndex : Nat) (f : ComboFlags w) : ComboFlags w :=
  { f with state := keyStateUp f.state keyIndex }

section

variable (cfg : ComboConfig) (handOn : ComboEntry → ComboState w → ComboState w)

def ComboConfig.combo (index : Nat) : Combo := cfg.combos.getD index default

def clearCombos (s : ComboState w) : ComboState w :=
  { s with
    longestTerm := 0
    flags := fun i =>
      if i < cfg.combos.length ∧ (s.flags i).active = false then (s.flags i).resetState else s.flags i }

def QueuedRecord.call (q : QueuedRecord) : ComboEntry :=
  match q.comboIndex with
  | some index => if q.record.keycode = 0 then .comboEvent index true else .tapping q
  | none => .tapping q

def QueuedRecord.disable (q : QueuedRecord) : QueuedRecord := 
  { q with record := { q.record with event := { q.record.event with type := .tick } } }

/-- The loop reads `key_buffer_size` in each round; it has at most as many rounds as the buffer is long. -/
def dumpLoop : Nat → Nat → ComboState w → ComboState w
  | 0, _, s => s
  | rounds + 1, i, s =>
    match s.keyBuffer[i]? with
    | none => s
    | some q =>
      let s := { s with keyBufferNext := i + 1 }
      if q.record.event.type = .tick then dumpLoop rounds (i + 1) s
      else
        let s := handOn q.call s
        dumpLoop rounds (i + 1) { s with keyBuffer := s.keyBuffer.modify i .disable }

def dumpKeyBuffer (s : ComboState w) : ComboState w :=
  if s.keyBuffer = [] then s
  else { dumpLoop handOn cfg.keyBufferLength s.keyBufferNext s with keyBuffer := [], keyBufferNext := 0 }

/-- A dropped entry leaves the ring only if it is the first. -/
def dropComboFromBuffer (index : Nat) (s : ComboState w) : ComboState w :=
  if index ∈ s.comboBuffer then
    let s := s.modifyFlags index .disable
    if s.comboBuffer.head? = some index then { s with comboBuffer := s.comboBuffer.tail } else s
  else s

def QueuedRecord.apply (index keycode : Nat) (q : QueuedRecord) : QueuedRecord :=
  { q with
    record := { q.record with keycode := keycode, event := { q.record.event with type := .combo, key := ⟨0, 0⟩ } }
    comboIndex := some index }

/-- The key buffer behind the loop of `apply_combo`, the records that it took and whether all keys were there. -/
def applyScan (combo : Combo) (index : Nat) : BitVec w → List QueuedRecord →
    List QueuedRecord × List QueuedRecord × Bool
  | _, [] => ([], [], false)
  | state, q :: buffer =>
    match findKeyIndexAndCount q.keycode combo.keys 0 none with
    | (none, _) =>
      let (buffer, taken, done) := applyScan combo index state buffer
      (q :: buffer, taken, done)
    | (some keyIndex, keyCount) =>
      let state := keyStateDown state keyIndex
      if allComboKeysAreDown state keyCount = true then (q.apply index combo.keycode :: buffer, [q], true)
      else
        let (buffer, taken, done) := applyScan combo index state buffer
        (q.disable :: buffer, q :: taken, done)

def applyCombo (index : Nat) (s : ComboState w) : ComboState w :=
  if (s.flags index).disabled = true then s
  else
    let (buffer, taken, done) := applyScan (cfg.combo index) index (0 : BitVec w) s.keyBuffer
    let s := { s with keyBuffer := buffer }
    let s := if done = true then (s.modifyFlags index .activate).write (.activated index taken) else s
    dropComboFromBuffer index s

def applyCombos (s : ComboState w) : ComboState w :=
  clearCombos cfg (dumpKeyBuffer cfg handOn (s.comboBuffer.foldl (fun s index => applyCombo cfg index s) s))

/-- The combo of the two that is to be dropped, if they overlap. -/
def overlaps (combo1 combo2 : Nat) : Option Nat :=
  if (cfg.combo combo1).keys.any (fun key => decide (key ∈ (cfg.combo combo2).keys)) = true then
    if (cfg.combo combo2).keys.length < (cfg.combo combo1).keys.length then some combo2 else some combo1
  else none

/-- The loop over the prepared combos: `kept` are those that stay before the next one. It answers whether the
current combo is the one to drop. -/
def dropOverlaps (index : Nat) : List Nat → List Nat → ComboState w → Bool × ComboState w
  | kept, [], s => (false, { s with comboBuffer := kept })
  | kept, buffered :: rest, s =>
    match overlaps cfg buffered index with
    | none => dropOverlaps index (kept ++ [buffered]) rest s
    | some drop =>
      let s := s.modifyFlags drop .disable
      if drop = index then (true, { s with comboBuffer := kept ++ buffered :: rest })
      else if kept = [] then dropOverlaps index [] rest s
      else dropOverlaps index (kept ++ [buffered]) rest s

def pushCombo (index : Nat) (s : ComboState w) : ComboState w :=
  { s with
    comboBuffer := if s.comboBuffer.length + 1 = cfg.comboBufferLength then [] else s.comboBuffer ++ [index] }

def timerElapsed (now timer : Nat) : Nat := (now + (65536 - timer % 65536)) % 65536

def releaseCombo (index : Nat) (s : ComboState w) : ComboState w :=
  let s :=
    if (cfg.combo index).keycode ≠ 0 then handOn (.released index (cfg.combo index).keycode) s
    else handOn (.comboEvent index false) s
  s.modifyFlags index .deactivate

def comboKeyPressed (index keyIndex keyCount now : Nat) (s : ComboState w) : ComboState w :=
  let s :=
    if (s.flags index).active = false then
      { s.modifyFlags index (.keyDown keyIndex) with longestTerm := max s.longestTerm (cfg.term index) }
    else s
  if allComboKeysAreDown (s.flags index).state keyCount = true then
    if s.timer ≠ 0 ∧ cfg.term index < timerElapsed now s.timer then s.modifyFlags index .disable
    else
      let (dropped, s) := dropOverlaps cfg index [] s.comboBuffer s
      if dropped = true then s else pushCombo cfg index s
  else s

/-- The branch of the chord releases. Presses of a key that is no part of the combo come here, too. -/
def comboKeyReleased (index keyIndex keyCount : Nat) (part : Bool) (s : ComboState w) : Bool × ComboState w :=
  let f := s.flags index
  let (part, s) :=
    if f.active = false ∧ allComboKeysAreDown f.state keyCount = true then
      if f.disabled = true then (false, dropComboFromBuffer index s) else (part, s)
    else if f.active = true ∧ onlyOneKeyIsDown f.state = true ∧ keyNotYetReleased f.state keyIndex = true then
      (true, releaseCombo cfg handOn index s)
    else if f.active = true ∧ keyNotYetReleased f.state keyIndex = true then (true, s)
    else (false, s)
  (part, s.modifyFlags index (.keyUp keyIndex))

/-- The answer is `COMBO_KEY_PRESSED` or `COMBO_KEY_NOT_PRESSED`. -/
def processSingleCombo (keycode now : Nat) (pressed : Bool) (index : Nat) (s : ComboState w) : Bool × ComboState w :=
  match findKeyIndexAndCount keycode (cfg.combo index).keys 0 none with
  | (none, _) => (false, s)
  | (some keyIndex, keyCount) =>
    let part := !(s.flags index).disabled && s.enabled
    if pressed = true ∧ part = true then (true, comboKeyPressed cfg index keyIndex keyCount now s)
    else comboKeyReleased cfg handOn index keyIndex keyCount part s

def comboEnable (s : ComboState w) : ComboState w := { s with enabled := true }

def comboDisable (s : ComboState w) : ComboState w :=
  dumpKeyBuffer cfg handOn (clearCombos cfg { s with timer := 0, enabled := false, comboBuffer := [] })

def comboToggle (s : ComboState w) : ComboState w :=
  if s.enabled = true then comboDisable cfg handOn s else comboEnable s

def processSingleCombos (keycode now : Nat) (pressed : Bool) : List Nat → Bool → ComboState w → Bool × ComboState w
  | [], isComboKey, s => (isComboKey, s)
  | index :: indices, isComboKey, s =>
    let (part, s) := processSingleCombo cfg handOn keycode now pressed index s
    processSingleCombos keycode now pressed indices (isComboKey || part) s

def consumeKey (keycode : Nat) (record : Record) (now : Nat) (s : ComboState w) : ComboState w :=
  let s := if cfg.strictTimer = true ∧ s.timer ≠ 0 then s else { s with timer := now % 65536 }
  let s := s.write (.consumed ⟨record, keycode, none⟩)
  if s.keyBuffer.length < cfg.keyBufferLength then { s with keyBuffer := s.keyBuffer ++ [⟨record, keycode, none⟩] }
  else s

def applyOrDump (s : ComboState w) : ComboState w :=
  if s.comboBuffer ≠ [] then applyCombos cfg handOn s
  else clearCombos cfg { dumpKeyBuffer cfg handOn s with timer := 0 }

def processCombo (keycode : Nat) (record : Record) (now : Nat) (s : ComboState w) : Bool × ComboState w :=
  if keycode = qkComboOn ∧ record.event.pressed = true then (true, comboEnable s)
  else if keycode = qkComboOff ∧ record.event.pressed = true then (true, comboDisable cfg handOn s)
  else if keycode = qkComboToggle ∧ record.event.pressed = true then (true, comboToggle cfg handOn s)
  else
    let (isComboKey, s) :=
      processSingleCombos cfg handOn keycode now record.event.pressed (List.range cfg.combos.length) false s
    let s :=
      if record.event.pressed = true ∧ isComboKey = true then consumeKey cfg keycode record now s
      else applyOrDump cfg handOn s
    (!isComboKey, s)

def comboTask (now : Nat) (s : ComboState w) : ComboState w :=
  if s.enabled = false then s
  else if s.timer ≠ 0 ∧ s.longestTerm < timerElapsed now s.timer then
    if s.comboBuffer ≠ [] then { applyCombos cfg handOn s with longestTerm := 0, timer := 0 }
    else clearCombos cfg { dumpKeyBuffer cfg handOn s with timer := 0 }
  else s

inductive ComboStep where
  /-- A key event, with the keycode that it is looked up to be. -/
  | key (keycode : Nat) (position : KeyPos) (pressed : Bool) (now : Nat)
  | task (now : Nat)
  | enable
  | disable
  | toggle

def ComboStep.exec : ComboStep → ComboState w → ComboState w
  | .key keycode position pressed now, s =>
    (processCombo cfg handOn keycode (.raw ⟨position, UInt16.ofNat now, .key, pressed⟩ 0) now
      (s.write (if pressed = true then .keyDown keycode else .keyUp keycode))).2
  | .task now, s => comboTask cfg handOn now s
  | .enable, s => comboEnable s
  | .disable, s => comboDisable cfg handOn s
  | .toggle, s => comboToggle cfg handOn s

def runCombos (s : ComboState w) (steps : List ComboStep) : ComboState w :=
  steps.foldl (fun s step => step.exec cfg handOn s) s

end

end Keys
end VialQmk
