import VialQmk.Keys.SourceLayers

/-!
# Keys.ProcessAction

`process_action` of `action.c`, with the parts of the keyboard state an action changes: the keys and
modifiers of the report and the layers.

The kinds of actions that leave these alone, or keep them on behind the release by design through
state of their own (one-shot keys, other usages, mouse keys), are a parameter of the configuration.

* `Undone` says what the release of an action has to have taken back: the keycode, the modifiers and
  the layer that its press turned on.
* `processAction_release`: the release of an action takes back just that.
-/

namespace VialQmk
namespace Keys

namespace ActionCode

variable (code : Nat)

def kindId : Nat := code / 4096 % 16

def keyCode : Nat := code % 256

def keyMods : Nat := code / 256 % 16

def layerTapVal : Nat := code / 256 % 32

def layerModsMods : Nat := code % 256

def layerModsLayer : Nat := code / 256 % 16

end ActionCode

def actMods : Nat := 0
def actRmods : Nat := 1
def actLmodsTap : Nat := 2
def actRmodsTap : Nat := 3
def actLayer : Nat := 8
def actLayerMods : Nat := 9
def actLayerTap : Nat := 10
def actLayerTapExt : Nat := 11

def modsOneshot : Nat := 0
def modsTapToggle : Nat := 1

def opTapToggle : Nat := 0xF0
def opOnOff : Nat := 0xF1
def opOffOn : Nat := 0xF2
def opSetClear : Nat := 0xF3
def opOneshot : Nat := 0xF4

def kcNo : Nat := 0

def IsBasicKeycode (code : Nat) : Prop := 4 ≤ code ∧ code ≤ 0xA4
deriving Decidable

def IsModifierKeycode (code : Nat) : Prop := 0xE0 ≤ code ∧ code ≤ 0xE7
deriving Decidable

abbrev Mods := BitVec 8

def modBit (code : Nat) : Mods := 1#8 <<< (code % 8)

def layerBit (cfg : LayerConfig) (layer : Nat) : LayerState cfg := 1#_ <<< layer

/-- The active layers and the keyboard report: the slots of its keys, and the modifiers behind it. -/
structure Keyboard (cfg : LayerConfig) where
  layerState : LayerState cfg
  defaultLayerState : LayerState cfg
  keys : List Nat
  realMods : Mods
  weakMods : Mods

structure ActionConfig (cfg : LayerConfig) where
  /-- `QS_tapping_toggle`. -/
  tappingToggle : Nat
  /-- One-shot keys, other usages and mouse keys. -/
  otherAction : Nat → Bool → Nat → Keyboard cfg → Keyboard cfg

section Registering

variable {cfg : LayerConfig}

def addKey (keys : List Nat) (code : Nat) : List Nat :=
  if code ∈ keys then keys else keys.set (keys.idxOf 0) code

def delKey (keys : List Nat) (code : Nat) : List Nat :=
  keys.map fun slot => if slot = code then 0 else slot

namespace Keyboard

variable (s : Keyboard cfg)

def addMods (mods : Mods) : Keyboard cfg := { s with realMods := s.realMods ||| mods }
def delMods (mods : Mods) : Keyboard cfg := { s with realMods := s.realMods &&& ~~~mods }
def addWeakMods (mods : Mods) : Keyboard cfg := { s with weakMods := s.weakMods ||| mods }
def delWeakMods (mods : Mods) : Keyboard cfg := { s with weakMods := s.weakMods &&& ~~~mods }

/-- A key that is in the report already is taken out and put in again. -/
def registerCode (code : Nat) : Keyboard cfg :=
  if IsBasicKeycode code then
    let keys := if code ∈ s.keys then delKey s.keys code else s.keys
    { s with keys := addKey keys code }
  else if IsModifierKeycode code then s.addMods (modBit code)
  else s

def unregisterCode (code : Nat) : Keyboard cfg :=
  if IsBasicKeycode code then { s with keys := delKey s.keys code }
  else if IsModifierKeycode code then s.delMods (modBit code)
  else s

def layerStateSet (state : LayerState cfg) : Keyboard cfg := { s with layerState := state }

def defaultLayerStateSet (state : LayerState cfg) : Keyboard cfg := { s with defaultLayerState := state }

def layerOn (layer : Nat) : Keyboard cfg := s.layerStateSet (s.layerState ||| layerBit cfg layer)
def layerOff (layer : Nat) : Keyboard cfg := s.layerStateSet (s.layerState &&& ~~~layerBit cfg layer)
def layerInvert (layer : Nat) : Keyboard cfg := s.layerStateSet (s.layerState ^^^ layerBit cfg layer)
def layerMove (layer : Nat) : Keyboard cfg := s.layerStateSet (layerBit cfg layer)
def layerClear : Keyboard cfg := s.layerStateSet 0

end Keyboard

/-- `OP_BIT_AND`, `OP_BIT_OR`, `OP_BIT_XOR` and `OP_BIT_SET`. -/
def bitOp (op : Nat) (state operand : LayerState cfg) : LayerState cfg :=
  match op with
  | 0 => state &&& operand
  | 1 => state ||| operand
  | 2 => state ^^^ operand
  | _ => operand

def processKey (mods : Mods) (code : Nat) (pressed : Bool) (s : Keyboard cfg) : Keyboard cfg :=
  let strong := IsModifierKeycode code ∨ code = kcNo
  if pressed then
    let s := if mods ≠ 0 then (if strong then s.addMods mods else s.addWeakMods mods) else s
    s.registerCode code
  else
    let s := s.unregisterCode code
    if mods ≠ 0 then (if strong then s.delMods mods else s.delWeakMods mods) else s

/-- `ACT_LMODS_TAP` and `ACT_RMODS_TAP`, one-shot modifiers apart. -/
def processModsTap (acfg : ActionConfig cfg) (mods : Mods) (code : Nat) (pressed : Bool) (tapCount : Nat)
    (s : Keyboard cfg) : Keyboard cfg :=
  if code = modsTapToggle then
    if pressed then (if tapCount ≤ acfg.tappingToggle then s.addMods mods else s)
    else if tapCount < acfg.tappingToggle then s.delMods mods else s
  else if pressed then (if tapCount > 0 then s.registerCode code else s.addMods mods)
  else if tapCount > 0 then s.unregisterCode code else s.delMods mods

/-- `ACT_LAYER`: bits `ppp` select four layers, `xbit` keeps the others under AND. -/
def processLayer (code : Nat) (pressed : Bool) (s : Keyboard cfg) : Keyboard cfg :=
  let on := code / 256 % 4
  let op := code / 1024 % 4
  let shift := code / 32 % 8 * 4
  let bits : LayerState cfg := BitVec.ofNat _ (code % 16) <<< shift
  let mask : LayerState cfg := if code / 16 % 2 = 1 then ~~~(0xF#_ <<< shift) else 0
  if on = 0 then
    if pressed then s else s.defaultLayerStateSet (bitOp op s.defaultLayerState (bits ||| mask))
  else if (if pressed then on % 2 = 1 else on / 2 = 1) then
    s.layerStateSet (bitOp op s.layerState (bits ||| mask))
  else s

/-- `ACT_LAYER_TAP` and `ACT_LAYER_TAP_EXT`, one-shot layers apart. -/
def processLayerTap (acfg : ActionConfig cfg) (layer code : Nat) (pressed : Bool) (tapCount : Nat)
    (s : Keyboard cfg) : Keyboard cfg :=
  if code = opTapToggle then
    if pressed then (if tapCount < acfg.tappingToggle then s.layerInvert layer else s)
    else if tapCount ≤ acfg.tappingToggle then s.layerInvert layer else s
  else if code = opOnOff then (if pressed then s.layerOn layer else s.layerOff layer)
  else if code = opOffOn then (if pressed then s.layerOff layer else s.layerOn layer)
  else if code = opSetClear then (if pressed then s.layerMove layer else s.layerClear)
  else if pressed then (if tapCount > 0 then s.registerCode code else s.layerOn layer)
  else if tapCount > 0 then s.unregisterCode code else s.layerOff layer

open ActionCode

def processAction (acfg : ActionConfig cfg) (code : Nat) (pressed : Bool) (tapCount : Nat)
    (s : Keyboard cfg) : Keyboard cfg :=
  let left : Mods := BitVec.ofNat 8 (keyMods code)
  if kindId code = actMods then processKey left (keyCode code) pressed s
  else if kindId code = actRmods then processKey (left <<< 4) (keyCode code) pressed s
  else if kindId code = actLmodsTap ∧ keyCode code ≠ modsOneshot then
    processModsTap acfg left (keyCode code) pressed tapCount s
  else if kindId code = actRmodsTap ∧ keyCode code ≠ modsOneshot then
    processModsTap acfg (left <<< 4) (keyCode code) pressed tapCount s
  else if kindId code = actLayer then processLayer code pressed s
  else if kindId code = actLayerMods then
    let mods : Mods := BitVec.ofNat 8 (layerModsMods code)
    if pressed then (s.layerOn (layerModsLayer code)).addMods mods
    else (s.delMods mods).layerOff (layerModsLayer code)
  else if (kindId code = actLayerTap ∨ kindId code = actLayerTapExt) ∧ keyCode code ≠ opOneshot then
    processLayerTap acfg (layerTapVal code) (keyCode code) pressed tapCount s
  else acfg.otherAction code pressed tapCount s

end Registering

section Release

variable {cfg : LayerConfig} {acfg : ActionConfig cfg} {s : Keyboard cfg}

/-- The keycode is not registered: a basic keycode is not in the report, a modifier is off. -/
def Unregistered (code : Nat) (s : Keyboard cfg) : Prop :=
  (IsBasicKeycode code → code ∉ s.keys) ∧ (IsModifierKeycode code → s.realMods &&& modBit code = 0)

def KeyUndone (mods : Mods) (code : Nat) (s : Keyboard cfg) : Prop :=
  Unregistered code s ∧
    if IsModifierKeycode code ∨ code = kcNo then s.realMods &&& mods = 0 else s.weakMods &&& mods = 0

def ModsTapUndone (acfg : ActionConfig cfg) (mods : Mods) (code tapCount : Nat) (s : Keyboard cfg) : Prop :=
  if code = modsTapToggle then tapCount < acfg.tappingToggle → s.realMods &&& mods = 0
  else if tapCount > 0 then Unregistered code s else s.realMods &&& mods = 0

/-- Layer keys other than the momentary ones and the layer-tap keys do not end with their release. -/
def LayerTapUndone (layer code tapCount : Nat) (s : Keyboard cfg) : Prop :=
  if code = opOnOff then s.layerState &&& layerBit cfg layer = 0
  else if code = opTapToggle ∨ code = opOffOn ∨ code = opSetClear then True
  else if tapCount > 0 then Unregistered code s else s.layerState &&& layerBit cfg layer = 0

open ActionCode

/-- The keycode that the press of the action registered is gone, and so are the modifiers and the
layer it holds. -/
def Undone (acfg : ActionConfig cfg) (code tapCount : Nat) (s : Keyboard cfg) : Prop :=
  let left : Mods := BitVec.ofNat 8 (keyMods code)
  if kindId code = actMods then KeyUndone left (keyCode code) s
  else if kindId code = actRmods then KeyUndone (left <<< 4) (keyCode code) s
  else if kindId code = actLmodsTap ∧ keyCode code ≠ modsOneshot then
    ModsTapUndone acfg left (keyCode code) tapCount s
  else if kindId code = actRmodsTap ∧ keyCode code ≠ modsOneshot then
    ModsTapUndone acfg (left <<< 4) (keyCode code) tapCount s
  else if kindId code = actLayer then True
  else if kindId code = actLayerMods then
    s.realMods &&& BitVec.ofNat 8 (layerModsMods code) = 0 ∧
      s.layerState &&& layerBit cfg (layerModsLayer code) = 0
  else if (kindId code = actLayerTap ∨ kindId code = actLayerTapExt) ∧ keyCode code ≠ opOneshot then
    LayerTapUndone (layerTapVal code) (keyCode code) tapCount s
  else True

theorem and_not_and {w : Nat} (x m : BitVec w) : x &&& ~~~m &&& m = 0 := by
  rw [BitVec.and_assoc, BitVec.and_comm (~~~m), BitVec.and_not_self]
  exact BitVec.and_zero

theorem not_mem_delKey {keys : List Nat} {code : Nat} (h : code ≠ 0) : code ∉ delKey keys code := by
  intro hmem
  obtain ⟨slot, -, hslot⟩ := List.mem_map.mp hmem
  by_cases hc : slot = code
  · rw [if_pos hc] at hslot
    exact h hslot.symm
  · rw [if_neg hc] at hslot
    exact hc hslot

theorem unregistered_unregisterCode (code : Nat) : Unregistered code (s.unregisterCode code) := by
  constructor
  · intro hb
    rw [Keyboard.unregisterCode, if_pos hb]
    exact not_mem_delKey (by have := hb.1; omega)
  · intro hm
    have hb : ¬ IsBasicKeycode code := fun hb => by have := hb.2; have := hm.1; omega
    rw [Keyboard.unregisterCode, if_neg hb, if_pos hm]
    exact and_not_and _ _

theorem processKey_release (mods : Mods) (code : Nat) :
    KeyUndone mods code (processKey mods code false s) := by
  have hun := unregistered_unregisterCode (s := s) code
  simp only [processKey, Bool.false_eq_true, if_false]
  by_cases hmods : mods = 0
  · subst hmods
    refine ⟨by simpa using hun, ?_⟩
    split <;> exact BitVec.and_zero
  · rw [if_pos hmods]
    by_cases hs : IsModifierKeycode code ∨ code = kcNo
    · rw [if_pos hs]
      refine ⟨⟨hun.1, fun hm => ?_⟩, ?_⟩
      · have hoff := hun.2 hm
        show (s.unregisterCode code).realMods &&& ~~~mods &&& modBit code = 0
        rw [BitVec.and_assoc, BitVec.and_comm (~~~mods), ← BitVec.and_assoc, hoff]
        exact BitVec.zero_and
      · rw [if_pos hs]
        exact and_not_and _ _
    · rw [if_neg hs]
      refine ⟨hun, ?_⟩
      rw [if_neg hs]
      exact and_not_and _ _

theorem processModsTap_release (mods : Mods) (code tapCount : Nat) :
    ModsTapUndone acfg mods code tapCount (processModsTap acfg mods code false tapCount s) := by
  simp only [processModsTap, ModsTapUndone, Bool.false_eq_true, if_false]
  by_cases hcode : code = modsTapToggle
  · rw [if_pos hcode, if_pos hcode]
    intro htap
    rw [if_pos htap]
    exact and_not_and _ _
  · rw [if_neg hcode, if_neg hcode]
    by_cases htap : tapCount > 0
    · rw [if_pos htap, if_pos htap]
      exact unregistered_unregisterCode code
    · rw [if_neg htap, if_neg htap]
      exact and_not_and _ _

theorem processLayerTap_release (layer code tapCount : Nat) :
    LayerTapUndone layer code tapCount (processLayerTap acfg layer code false tapCount s) := by
  simp only [processLayerTap, LayerTapUndone, Bool.false_eq_true, if_false]
  by_cases hon : code = opOnOff
  · subst hon
    simp only [show opOnOff ≠ opTapToggle by decide, if_true, if_false]
    exact and_not_and _ _
  · rw [if_neg hon, if_neg hon]
    split
    · trivial
    · rename_i hop
      simp only [not_or] at hop
      rw [if_neg hop.1, if_neg hop.2.1, if_neg hop.2.2]
      by_cases htap : tapCount > 0
      · rw [if_pos htap, if_pos htap]
        exact unregistered_unregisterCode code
      · rw [if_neg htap, if_neg htap]
        exact and_not_and _ _

/-- The release of an action takes back what its press turned on, whatever happened in between. -/
theorem processAction_release (code tapCount : Nat) :
    Undone acfg code tapCount (processAction acfg code false tapCount s) := by
  simp only [Undone, processAction]
  split_ifs
  · exact processKey_release _ _
  · exact processKey_release _ _
  · exact processModsTap_release _ _ _
  · exact processModsTap_release _ _ _
  · trivial
  · exact ⟨and_not_and _ _, and_not_and _ _⟩
  · exact processLayerTap_release _ _ _

end Release

end Keys
end VialQmk
