import VialQmk.Autocorrect.Generate

/-!
# Autocorrect.Process

The autocorrection of key presses (`process_autocorrect.c`) with a generated table. An access outside of an array,
which C leaves open, is `none`.

The default handlers are in place, action tapping and layers are on, and swap hands is off. The state leaves out
what is in the buffer behind its size.
-/

namespace VialQmk
namespace Autocorrect

def KC_Z : Nat := 0x1d

def KC_1 : Nat := 0x1e

def KC_0 : Nat := 0x27

def KC_ENTER : Nat := 0x28

def KC_BSPC : Nat := 0x2a

def KC_TAB : Nat := 0x2b

def KC_SEMICOLON : Nat := 0x33

def KC_GRAVE : Nat := 0x35

def KC_SLASH : Nat := 0x38

def QK_LSFT : Nat := 0x0200

def QK_RSFT : Nat := 0x1200

def QK_AUTOCORRECT_ON : Nat := 0x7c74

def QK_AUTOCORRECT_OFF : Nat := 0x7c75

def QK_AUTOCORRECT_TOGGLE : Nat := 0x7c76

def MOD_LSFT : BitVec 8 := 0x02

def MOD_RSFT : BitVec 8 := 0x12

def MOD_MASK_SHIFT : BitVec 8 := 0x22

def inRange (keycode : Nat) (range : Nat × Nat) : Bool := range.1 ≤ keycode && keycode ≤ range.2

/-- The keycodes that the default handler leaves alone: `KC_LSFT`, `KC_RSFT`, `KC_CAPS`, `QK_TO`, `QK_MOMENTARY`,
`QK_DEF_LAYER`, `QK_PERSISTENT_DEF_LAYER`, `QK_TOGGLE_LAYER`, `QK_ONE_SHOT_LAYER`, `QK_LAYER_TAP_TOGGLE`,
`QK_LAYER_MOD` and `QK_ONE_SHOT_MOD`. -/
def excludedRanges : List (Nat × Nat) :=
  [(0xe1, 0xe1), (0xe5, 0xe5), (0x39, 0x39), (0x5200, 0x521f), (0x5220, 0x523f), (0x5240, 0x525f), (0x52e0, 0x52ff),
    (0x5260, 0x527f), (0x5280, 0x529f), (0x52c0, 0x52df), (0x5000, 0x51ff), (0x52a0, 0x52bf)]

def tapRanges : List (Nat × Nat) := [(0x4000, 0x4fff), (0x2000, 0x3fff)]

def swapHandsRange : Nat × Nat := (0x5600, 0x56ff)

structure AutocorrectState where
  enabled : Bool
  typoBuffer : List Nat

def AutocorrectState.initial : AutocorrectState := ⟨true, [KC_SPC]⟩

structure KeyRecord where
  pressed : Bool
  tapCount : Nat

structure AppliedCorrection where
  backspaces : Nat
  str : List Nat
  typo : List Nat
  correct : List Nat

structure Processed where
  result : Bool
  applied : Option AppliedCorrection
  state : AutocorrectState

/-- The end of the default handler: no correction while a modifier other than shift is down. -/
def checkMods (keycode : Nat) (mods : BitVec 8) (s : AutocorrectState) :
    Option (Nat × BitVec 8) × AutocorrectState :=
  if mods &&& ~~~MOD_MASK_SHIFT ≠ 0 then (none, { s with typoBuffer := [] }) else (some (keycode, mods), s)

/-- The keycode and the modifiers as the handler leaves them, or `none` where it answers `false`. -/
def processAutocorrectDefaultHandler (keycode : Nat) (record : KeyRecord) (mods : BitVec 8) (s : AutocorrectState) :
    Option (Nat × BitVec 8) × AutocorrectState :=
  if excludedRanges.any (inRange keycode) then
    (none, s)
  else if inRange keycode (QK_LSFT, QK_LSFT + 255) then
    (some (keycode &&& 0xff, mods ||| MOD_LSFT), s)
  else if inRange keycode (QK_RSFT, QK_RSFT + 255) then
    (some (keycode &&& 0xff, mods ||| MOD_RSFT), s)
  else if tapRanges.any (inRange keycode) then
    if record.tapCount = 0 then (none, s) else checkMods (keycode &&& 0xff) mods s
  else if inRange keycode swapHandsRange then
    (none, s)
  else
    checkMods keycode mods s

/-- The loop over the letters of a branch: where the key is, or none where it is not. -/
def scanBranch (data : List Nat) (key : Nat) : Nat → Nat → Nat → Option (Option Nat)
  | 0, _, _ => none
  | n + 1, state, code =>
    if code = key then
      some (some state)
    else if code = 0 then
      some none
    else do
      let code ← data[(state + 3) % 0x10000]?
      scanBranch data key n ((state + 3) % 0x10000) code

/-- One step of the walk: the next state, or none where no typo has this letter here. -/
def followKey (data : List Nat) (key state code : Nat) : Option (Option Nat) :=
  if code &&& 64 ≠ 0 then do
    match ← scanBranch data key (data.length + 1) state (code &&& 63) with
    | none => some none
    | some state =>
      let low ← data[state + 1]?
      let high ← data[state + 2]?
      some (some (low ||| high <<< 8))
  else if code ≠ key then
    some none
  else do
    let code ← data[(state + 1) % 0x10000]?
    if code = 0 then some (some ((state + 2) % 0x10000)) else some (some ((state + 1) % 0x10000))

/-- The loop over the buffer, from its end: the state of the typo that it finds. -/
def walk (data : List Nat) : List Nat → Nat → Nat → Option (Option Nat)
  | [], _, _ => some none
  | key :: keys, state, code => do
    match ← followKey data key state code with
    | none => some none
    | some state =>
      if data.length ≤ state then
        some none
      else do
        let code ← data[state]?
        if code &&& 128 ≠ 0 then some (some state) else walk data keys state code

/-- The loop that finds the typed word: its start and its length. -/
def gatherTypo (typoBuffer : List Nat) : Nat → Nat → Nat × Nat
  | 0, typoLen => (0, typoLen)
  | i + 1, typoLen =>
    if typoBuffer[i]? = some KC_SPC ∧ i + 1 ≠ typoBuffer.length then
      (i + 1, typoLen)
    else
      gatherTypo typoBuffer i (typoLen + 1)

def readString (bytes : List Nat) : Option (List Nat) :=
  if 0 ∈ bytes then some (bytes.takeWhile (· ≠ 0)) else none

/-- What the code does at a typo, up to the call of `apply_autocorrect`. -/
def foundTypo (d : AutocorrectData) (typoBuffer : List Nat) (state : Nat) : Option AppliedCorrection := do
  let code ← d.data[state]?
  let backspaces := code &&& 63
  let changes ← readString (d.data.drop (state + 1))
  let spaceLast := typoBuffer.getLast? = some KC_SPC
  let (typoStart, typoLen) := gatherTypo typoBuffer typoBuffer.length 0
  let typoLen := if spaceLast then typoLen - 1 else typoLen
  let typo := ((typoBuffer.drop typoStart).take typoLen).map fun key => key - KC_A + 'a'.toNat
  let offset := if spaceLast then backspaces else backspaces + 1
  -- `strcpy_P` to `correct + typo_len - offset`, in an array of ten more than the longest typo.
  if offset ≤ typoLen ∧ typoLen - offset + changes.length + 1 ≤ d.maxLength + 10 then
    some ⟨backspaces, changes, typo, typo.take (typoLen - offset) ++ changes⟩
  else
    none

/-- The buffer with one more keycode, without its oldest one if it is full. -/
def appendKeycode (maxLength keycode : Nat) (typoBuffer : List Nat) : List Nat :=
  if maxLength ≤ typoBuffer.length then
    (typoBuffer.drop 1).take (maxLength - 1) ++ [keycode]
  else
    typoBuffer ++ [keycode]

def typeKeycode (d : AutocorrectData) (keycode : Nat) (s : AutocorrectState) : Option Processed :=
  let typoBuffer := appendKeycode d.maxLength keycode s.typoBuffer
  if typoBuffer.length < d.minLength then
    some ⟨true, none, { s with typoBuffer }⟩
  else do
    let code ← d.data[0]?
    match ← walk d.data typoBuffer.reverse 0 code with
    | none => some ⟨true, none, { s with typoBuffer }⟩
    | some state =>
      let applied ← foundTypo d typoBuffer state
      if keycode = KC_SPC then
        some ⟨true, some applied, { s with typoBuffer := [KC_SPC] }⟩
      else
        some ⟨false, some applied, { s with typoBuffer := [] }⟩

def autocorrectEnable (s : AutocorrectState) : AutocorrectState := { s with enabled := true }

def autocorrectDisable (_ : AutocorrectState) : AutocorrectState := ⟨false, []⟩

def autocorrectToggle (s : AutocorrectState) : AutocorrectState := ⟨!s.enabled, []⟩

def processAutocorrect (d : AutocorrectData) (keycode : Nat) (record : KeyRecord) (mods : BitVec 8)
    (s : AutocorrectState) : Option Processed :=
  if QK_AUTOCORRECT_ON ≤ keycode ∧ keycode ≤ QK_AUTOCORRECT_TOGGLE ∧ record.pressed then
    some ⟨false, none,
      if keycode = QK_AUTOCORRECT_ON then autocorrectEnable s
      else if keycode = QK_AUTOCORRECT_OFF then autocorrectDisable s
      else autocorrectToggle s⟩
  else if !s.enabled then
    some ⟨true, none, { s with typoBuffer := [] }⟩
  else if !record.pressed then
    some ⟨true, none, s⟩
  else
    match processAutocorrectDefaultHandler keycode record mods s with
    | (none, s) => some ⟨true, none, s⟩
    | (some (keycode, mods), s) =>
      if inRange keycode (KC_A, KC_Z) then
        typeKeycode d keycode s
      else if inRange keycode (KC_1, KC_0) || inRange keycode (KC_TAB, KC_SEMICOLON) ||
          inRange keycode (KC_GRAVE, KC_SLASH) then
        typeKeycode d KC_SPC s
      else if keycode = KC_ENTER then
        typeKeycode d KC_SPC { s with typoBuffer := [] }
      else if keycode = KC_BSPC then
        some ⟨true, none, { s with typoBuffer := s.typoBuffer.dropLast }⟩
      else if keycode = KC_QUOT then
        typeKeycode d (if mods &&& MOD_MASK_SHIFT ≠ 0 then KC_SPC else keycode) s
      else
        some ⟨true, none, { s with typoBuffer := [] }⟩

end Autocorrect
end VialQmk
