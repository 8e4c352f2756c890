import VialQmk.Keys.ProcessAction

/-!
# Keys.OneshotLayer

One-shot layers: the byte with the layer and its three state bits (`action_util.c`), and what `process_record`
does with them for one-shot layer keys, for ordinary keys and for the keys that switch one-shot keys on and
off (`action.c`, `quantum.c`).
-/

namespace VialQmk
namespace Keys

abbrev OneshotBits := BitVec 3

def oneshotPressed : OneshotBits := 0b001
def oneshotOtherKeyPressed : OneshotBits := 0b010
def oneshotStart : OneshotBits := 0b011
def oneshotToggled : OneshotBits := 0b100

def actUsage : Nat := 4

structure OneshotSettings where
  tapToggle : Nat
  timeout : UInt16
deriving DecidableEq, Repr

def IsLayerAction (code : Nat) : Prop :=
  ActionCode.kindId code = actLayer ∨ ActionCode.kindId code = actLayerMods ∨
    ActionCode.kindId code = actLayerTap ∨ ActionCode.kindId code = actLayerTapExt
deriving Decidable

/-- A key with an action that is not about layers. Some are taken by `process_record_quantum`. -/
structure OrdinaryKey where
  action : Nat
  taken : Bool
  ordinary : ¬ IsLayerAction action

inductive OneshotSwitch where
  | on
  | off
  | toggle
deriving DecidableEq, Repr

inductive OneshotKey where
  | osl (layer : Fin 32)
  | ordinary (key : OrdinaryKey)
  | switch (op : OneshotSwitch)

/-- `ACTION_LAYER_ONESHOT`, the action of the ordinary key, and `ACTION_NO`. -/
def OneshotKey.action : OneshotKey → Nat
  | .osl layer => actLayerTap * 4096 + layer * 256 + opOneshot
  | .ordinary key => key.action
  | .switch _ => 0

/-- The keys have positions `κ`, the layer mask `w` bits. `layer` and `state` are the parts of
`oneshot_layer_data`. -/
structure Oneshot (κ : Type) (w : Nat) where
  oneshotEnable : Bool
  layer : Fin 32
  state : OneshotBits
  layerTime : UInt16
  layerState : BitVec w
  held : κ → Option OneshotKey

namespace Oneshot

variable {κ : Type} {w : Nat} (settings : OneshotSettings) (s : Oneshot κ w)

def layerOn (layer : Fin 32) : Oneshot κ w := { s with layerState := s.layerState ||| 1#w <<< layer.val }

def layerOff (layer : Fin 32) : Oneshot κ w := { s with layerState := s.layerState &&& ~~~(1#w <<< layer.val) }

def setOneshotLayer (layer : Fin 32) (state : OneshotBits) (now : UInt16) : Oneshot κ w :=
  if s.oneshotEnable then
    { layerOn { s with layer, state } layer with layerTime := now }
  else s.layerOn layer

def resetOneshotLayer : Oneshot κ w := { s with layer := 0, state := 0, layerTime := 0 }

def clearOneshotLayerState (bits : OneshotBits) : Oneshot κ w :=
  let cleared := { s with state := s.state &&& ~~~bits }
  if cleared.state = 0 ∧ s.state ≠ cleared.state ∧ s.oneshotEnable then
    (cleared.layerOff cleared.layer).resetOneshotLayer
  else cleared

def isOneshotLayerActive : Bool := s.state ≠ 0

def hasOneshotLayerTimedOut (now : UInt16) : Bool :=
  settings.timeout ≤ now - s.layerTime && s.state &&& oneshotToggled = 0

def oneshotSet (active : Bool) : Oneshot κ w :=
  if s.oneshotEnable ≠ active then
    { s with oneshotEnable := active }.clearOneshotLayerState oneshotOtherKeyPressed
  else s

def oneshotSwitch : OneshotSwitch → Oneshot κ w
  | .on => s.oneshotSet true
  | .off => s.oneshotSet false
  | .toggle => s.oneshotSet !s.oneshotEnable

/-- A pressed key that is not a modifier, a dual-role key that is held or a one-shot modifier. -/
def clearsOneshotLayer (action tapCount : Nat) : Bool :=
  ActionCode.kindId action = actUsage ∨
    ¬ (IsModifierKeycode (ActionCode.keyCode action) ∨
      (ActionCode.kindId action = actLmodsTap ∨ ActionCode.kindId action = actRmodsTap) ∧
        (ActionCode.keyCode action ≤ modsTapToggle ∨ tapCount = 0))

def opOneshotLayer (layer : Fin 32) (pressed : Bool) (tapCount : Nat) (now : UInt16) : Oneshot κ w :=
  if ¬ s.oneshotEnable then
    if pressed then s.layerOn layer else s.layerOff layer
  else if 1 < settings.tapToggle then
    if pressed then
      if s.state = oneshotToggled then s.resetOneshotLayer.layerOff layer
      else if tapCount < settings.tapToggle then s.setOneshotLayer layer oneshotStart now
      else s
    else if settings.tapToggle ≤ tapCount then s.resetOneshotLayer.setOneshotLayer layer oneshotToggled now
    else s.clearOneshotLayerState oneshotPressed
  else if pressed then s.setOneshotLayer layer oneshotStart now
  else
    let released := s.clearOneshotLayerState oneshotPressed
    if 1 < tapCount then released.clearOneshotLayerState oneshotOtherKeyPressed else released

/-- The part of `process_action` before its `switch`, with `do_release_oneshot`. -/
def endOneshotLayer (action tapCount : Nat) : Bool × Oneshot κ w :=
  if s.isOneshotLayerActive ∧ clearsOneshotLayer action tapCount ∧ s.oneshotEnable then
    let cleared := s.clearOneshotLayerState oneshotOtherKeyPressed
    (!cleared.isOneshotLayerActive, cleared)
  else (false, s)

/-- `process_action`. When a press has ended the one-shot layer, the key is released at once, with the layer of
`get_oneshot_layer` on; a release of these keys leaves everything as it is. -/
def processAction (key : OneshotKey) (pressed : Bool) (tapCount : Nat) (now : UInt16) : Oneshot κ w :=
  let (doRelease, s) := if pressed then s.endOneshotLayer key.action tapCount else (false, s)
  match key with
  | .osl layer => s.opOneshotLayer settings layer pressed tapCount now
  | _ =>
    if doRelease ∧ s.state &&& oneshotPressed = 0 then (s.layerOn s.layer).layerOff s.layer else s

def processRecord (key : OneshotKey) (pressed : Bool) (tapCount : Nat) (now : UInt16) : Oneshot κ w :=
  match key with
  | .osl _ => s.processAction settings key pressed tapCount now
  | .ordinary k =>
    if k.taken then
      if s.isOneshotLayerActive ∧ pressed ∧ s.oneshotEnable then
        s.clearOneshotLayerState oneshotOtherKeyPressed
      else s
    else s.processAction settings key pressed tapCount now
  | .switch op =>
    (if pressed then s.oneshotSwitch op else s).processAction settings key pressed tapCount now

def checkTimeout (now : UInt16) : Oneshot κ w :=
  if s.oneshotEnable ∧ 0 < settings.timeout ∧ s.hasOneshotLayerTimedOut settings now then
    s.clearOneshotLayerState oneshotOtherKeyPressed
  else s

end Oneshot

/-- Calls of `action_exec`, and the records that reach `process_record`. -/
inductive OneshotEvent (κ : Type) where
  | exec (now : UInt16)
  | press (k : κ) (key : OneshotKey) (tapCount : Nat) (now : UInt16)
  | release (k : κ) (tapCount : Nat) (now : UInt16)

namespace Oneshot

variable {κ : Type} {w : Nat} [DecidableEq κ] (settings : OneshotSettings)

/-- A key that is down is not pressed again, and only keys that are down are released, with the action of
their press. -/
def step (s : Oneshot κ w) : OneshotEvent κ → Oneshot κ w
  | .exec now => s.checkTimeout settings now
  | .press k key tapCount now =>
    match s.held k with
    | some _ => s
    | none => { s with held := Function.update s.held k (some key) }.processRecord settings key true tapCount now
  | .release k tapCount now =>
    match s.held k with
    | some key => { s with held := Function.update s.held k none }.processRecord settings key false tapCount now
    | none => s

def run (s : Oneshot κ w) (events : List (OneshotEvent κ)) : Oneshot κ w := events.foldl (step settings) s

/-- One-shot keys are on, nothing is held, and `base` are the layers. -/
def start (base : BitVec w) : Oneshot κ w where
  oneshotEnable := true
  layer := 0
  state := 0
  layerTime := 0
  layerState := base
  held _ := none

end Oneshot

end Keys
end VialQmk
