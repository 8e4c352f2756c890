import VialQmk.Keys.ProcessAction
import VialQmk.Lib.Bits

/-!
# Keys.LayerLock

Locked layers (`layer_lock.c`, `process_layer_lock.c`), with the actions that the layer keys have besides.

* `processLayerLock`: the keys that unlock a layer, in front of `processAction`.
* `processLayerLock_subset`: a locked layer is on, behind each call.
* `layer_lock_release`: what the press and the release of a layer key do to a locked layer.
-/

namespace VialQmk
namespace Keys

/-- The flags of `keymap_config` that the keycodes of keys and modifiers depend on. -/
structure MagicFlags where
  swapControlCapslock : Bool
  capslockToControl : Bool
  swapLaltLgui : Bool
  swapRaltRgui : Bool
  noGui : Bool
  swapGraveEsc : Bool
  swapBackslashBackspace : Bool
  swapLctlLgui : Bool
  swapRctlRgui : Bool
  swapEscapeCapslock : Bool

def keycodeConfig (f : MagicFlags) (keycode : Nat) : Nat :=
  match keycode with
  -- `KC_CAPS_LOCK` and `KC_LOCKING_CAPS_LOCK`
  | 0x39 | 0x82 =>
    if f.swapControlCapslock ∨ f.capslockToControl then 0xE0
    else if f.swapEscapeCapslock then 0x29
    else keycode
  -- `KC_LEFT_CTRL`
  | 0xE0 =>
    if f.swapControlCapslock then 0x39
    else if f.swapLctlLgui then (if f.noGui then kcNo else 0xE3)
    else 0xE0
  -- `KC_LEFT_ALT`
  | 0xE2 => if f.swapLaltLgui then (if f.noGui then kcNo else 0xE3) else 0xE2
  -- `KC_LEFT_GUI`
  | 0xE3 =>
    if f.swapLaltLgui then 0xE2
    else if f.swapLctlLgui then 0xE0
    else if f.noGui then kcNo
    else 0xE3
  -- `KC_RIGHT_CTRL`
  | 0xE4 => if f.swapRctlRgui then (if f.noGui then kcNo else 0xE7) else 0xE4
  -- `KC_RIGHT_ALT`
  | 0xE6 => if f.swapRaltRgui then (if f.noGui then kcNo else 0xE7) else 0xE6
  -- `KC_RIGHT_GUI`
  | 0xE7 =>
    if f.swapRaltRgui then 0xE6
    else if f.swapRctlRgui then 0xE4
    else if f.noGui then kcNo
    else 0xE7
  -- `KC_GRAVE`
  | 0x35 => if f.swapGraveEsc then 0x29 else 0x35
  -- `KC_ESCAPE`
  | 0x29 => if f.swapGraveEsc then 0x35 else if f.swapEscapeCapslock then 0x39 else 0x29
  -- `KC_BACKSLASH`
  | 0x31 => if f.swapBackslashBackspace then 0x2A else 0x31
  -- `KC_BACKSPACE`
  | 0x2A => if f.swapBackslashBackspace then 0x31 else 0x2A
  | _ => keycode

def modConfig (f : MagicFlags) (mod : Nat) : Nat :=
  let swap (on : Bool) (first second mask bits mod : Nat) : Nat :=
    if on ∧ xor (mod &&& mask = first : Bool) (mod &&& 0x18 = second : Bool) then mod ^^^ bits else mod
  let mod := swap f.swapLaltLgui 0x04 0x08 0x14 0x0C mod
  let mod := swap f.swapRaltRgui 0x14 0x18 0x14 0x0C mod
  let mod := swap f.swapLctlLgui 0x01 0x08 0x11 0x09 mod
  let mod := swap f.swapRctlRgui 0x11 0x18 0x11 0x09 mod
  if f.noGui then mod &&& 0xF7 &&& 0xE7 else mod

def IsMomentary (keycode : Nat) : Prop := 0x5220 ≤ keycode ∧ keycode ≤ 0x523F
deriving Decidable

def IsLayerTapToggle (keycode : Nat) : Prop := 0x52C0 ≤ keycode ∧ keycode ≤ 0x52DF
deriving Decidable

def IsLayerMod (keycode : Nat) : Prop := 0x5000 ≤ keycode ∧ keycode ≤ 0x51FF
deriving Decidable

def IsLayerTap (keycode : Nat) : Prop := 0x4000 ≤ keycode ∧ keycode ≤ 0x4FFF
deriving Decidable

/-- `QK_MOMENTARY_GET_LAYER` and `QK_LAYER_TAP_TOGGLE_GET_LAYER`. -/
def momentaryLayer (keycode : Nat) : Nat := keycode % 32

def layerModLayer (keycode : Nat) : Nat := keycode / 32 % 16

def layerTapLayer (keycode : Nat) : Nat := keycode / 256 % 16

def actionCode (kind param : Nat) : Nat := (kind <<< 12 ||| param) % 65536

/-- The right modifiers are put into the high half of a byte, of which their mark is the ninth bit. -/
def layerModAction (layer mod : Nat) : Nat :=
  actionCode actLayerMods (layer <<< 8 ||| (if mod &&& 0x10 ≠ 0 then mod <<< 4 else mod))

def layerTapAction (layer key : Nat) : Nat := actionCode actLayerTap (layer <<< 8 ||| key)

/-- `action_for_keycode`, on the layer keys that can unlock; `keycode_config` leaves these as they are. -/
def layerKeyAction (f : MagicFlags) (keycode : Nat) : Nat :=
  if IsLayerTap keycode then layerTapAction (layerTapLayer keycode) (keycodeConfig f (keycode % 256))
  else if IsMomentary keycode then layerTapAction (momentaryLayer keycode) opOnOff
  else if IsLayerTapToggle keycode then layerTapAction (momentaryLayer keycode) opTapToggle
  else if IsLayerMod keycode then layerModAction (layerModLayer keycode) (modConfig f (keycode % 32))
  else 0

def qkLayerLock : Nat := 0x7C7B

section Code

variable {cfg : LayerConfig}

/-- `oneshot_layer_data` is the layer above three bits of state. -/
structure LayerLock (cfg : LayerConfig) where
  keyboard : Keyboard cfg
  lockedLayers : LayerState cfg
  oneshotLayerData : Nat

namespace LayerLock

variable (s : LayerLock cfg)

def IsLayerLocked (layer : Nat) : Prop := s.lockedLayers &&& layerBit cfg layer ≠ 0
deriving Decidable

def layerLockInvert (layer : Nat) : LayerLock cfg :=
  let mask := layerBit cfg layer
  if s.lockedLayers &&& mask = 0 then
    { keyboard := s.keyboard.layerOn layer
      lockedLayers := s.lockedLayers ^^^ mask
      oneshotLayerData := if layer = s.oneshotLayerData / 8 then 0 else s.oneshotLayerData }
  else
    { s with
      keyboard := s.keyboard.layerOff layer
      lockedLayers := s.lockedLayers ^^^ mask }

/-- A locked layer that something else has turned off is unlocked. -/
def sync : LayerLock cfg :=
  if s.lockedLayers &&& ~~~s.keyboard.layerState ≠ 0 then
    { s with lockedLayers := s.lockedLayers &&& s.keyboard.layerState }
  else s

def handleMoOrTt (layer : Nat) (pressed : Bool) : Bool × LayerLock cfg :=
  if s.IsLayerLocked layer then (false, if pressed then s.layerLockInvert layer else s) else (true, s)

def highestLayer : Nat := s.keyboard.layerState.toNat.log2

def processLayerLock (keycode : Nat) (pressed : Bool) (tapCount : Nat) : Bool × LayerLock cfg :=
  let s := s.sync
  if keycode = qkLayerLock then (false, if pressed then s.layerLockInvert s.highestLayer else s)
  else if IsMomentary keycode then s.handleMoOrTt (momentaryLayer keycode) pressed
  else if IsLayerTapToggle keycode then s.handleMoOrTt (momentaryLayer keycode) pressed
  else if IsLayerMod keycode then
    if s.IsLayerLocked (layerModLayer keycode) then
      (false, if pressed then s.layerLockInvert (layerModLayer keycode)
        else { s with keyboard := { s.keyboard with realMods := 0 } })
    else (true, s)
  else if IsLayerTap keycode then
    if tapCount = 0 ∧ pressed = false ∧ s.IsLayerLocked (layerTapLayer keycode) then (false, s) else (true, s)
  else (true, s)

/-- An event of a layer key: its action follows where it is not skipped. -/
def processLayerKey (acfg : ActionConfig cfg) (f : MagicFlags) (keycode : Nat) (pressed : Bool) (tapCount : Nat) :
    LayerLock cfg :=
  let processed := s.processLayerLock keycode pressed tapCount
  if processed.1 then
    { processed.2 with
      keyboard := processAction acfg (layerKeyAction f keycode) pressed tapCount processed.2.keyboard }
  else processed.2

def pressRelease (acfg : ActionConfig cfg) (f : MagicFlags) (keycode tapCount : Nat) : LayerLock cfg :=
  (s.processLayerKey acfg f keycode true tapCount).processLayerKey acfg f keycode false tapCount

end LayerLock

end Code

theorem layerTapAction_eq {layer key : Nat} (hlayer : layer < 32) (hkey : key < 256) :
    layerTapAction layer key = 40960 + layer * 256 + key := by
  have hparam : layer <<< 8 ||| key = layer * 256 + key := by
    rw [← Nat.shiftLeft_add_eq_or_of_lt (show key < 2 ^ 8 from hkey), Nat.shiftLeft_eq]
  have hcode : actLayerTap <<< 12 ||| (layer * 256 + key) = 40960 + (layer * 256 + key) := by
    rw [show actLayerTap <<< 12 = 5 <<< 13 from rfl, ← Nat.shiftLeft_add_eq_or_of_lt (by omega)]
    rfl
  rw [layerTapAction, actionCode, hparam, hcode, Nat.mod_eq_of_lt (by omega), Nat.add_assoc]

section Actions

variable {cfg : LayerConfig} {acfg : ActionConfig cfg} {k : Keyboard cfg}

open ActionCode

theorem processAction_layerTap {layer key : Nat} (hlayer : layer < 32) (hkey : key < 256) (hop : key ≠ opOneshot)
    (pressed : Bool) (tapCount : Nat) :
    processAction acfg (layerTapAction layer key) pressed tapCount k =
      processLayerTap acfg layer key pressed tapCount k := by
  rw [layerTapAction_eq hlayer hkey]
  have hkind : kindId (40960 + layer * 256 + key) = 10 ∨ kindId (40960 + layer * 256 + key) = 11 := by
    rw [kindId]
    omega
  have hcode : keyCode (40960 + layer * 256 + key) = key := by
    rw [keyCode]
    omega
  have hval : layerTapVal (40960 + layer * 256 + key) = layer := by
    rw [layerTapVal]
    omega
  rcases hkind with hkind | hkind
  all_goals
    simp [processAction, hkind, hcode, hval, hop, actMods, actRmods, actLmodsTap, actRmodsTap, actLayer, actLayerMods,
      actLayerTap, actLayerTapExt]

/-- For a layer with an even number the mark of the right modifiers would change the layer. -/
def NamesItsLayer (layer mod : Nat) : Prop := mod &&& 0x10 = 0 ∨ layer % 2 = 1

theorem layerModAction_fields : ∀ layer < 16, ∀ mod < 32, mod &&& 0x10 = 0 ∨ layer % 2 = 1 →
    kindId (layerModAction layer mod) = actLayerMods ∧ layerModsLayer (layerModAction layer mod) = layer := by
  decide +kernel

theorem processAction_layerMod {layer mod : Nat} (hlayer : layer < 16) (hmod : mod < 32) (h : NamesItsLayer layer mod)
    (pressed : Bool) (tapCount : Nat) :
    (processAction acfg (layerModAction layer mod) pressed tapCount k).layerState =
      if pressed then (k.layerOn layer).layerState else (k.layerOff layer).layerState := by
  obtain ⟨hkind, hfield⟩ := layerModAction_fields layer hlayer mod hmod h
  cases pressed
  all_goals
    simp [processAction, hkind, hfield, actMods, actRmods, actLmodsTap, actRmodsTap, actLayer, actLayerMods,
      Keyboard.layerOn, Keyboard.layerOff, Keyboard.layerStateSet, Keyboard.addMods, Keyboard.delMods]

theorem keycodeConfig_lt (f : MagicFlags) {keycode bound : Nat} (hbound : 0xF0 ≤ bound) (h : keycode < bound) :
    keycodeConfig f keycode < bound := by
  unfold keycodeConfig
  repeat' split
  all_goals
    first
      | exact h
      | exact Nat.lt_of_lt_of_le (by decide) hbound

theorem modConfig_lt (f : MagicFlags) {mod : Nat} (h : mod < 32) : modConfig f mod < 32 := by
  have hswap (on : Bool) (first second mask bits mod : Nat) (hbits : bits < 32) (hmod : mod < 32) :
      (if on ∧ xor (mod &&& mask = first : Bool) (mod &&& 0x18 = second : Bool) then mod ^^^ bits else mod) < 32 := by
    split
    · exact Nat.xor_lt_two_pow (n := 5) hmod hbits
    · exact hmod
  have hmods := hswap f.swapRctlRgui 0x11 0x18 0x11 0x09 _ (by decide)
    (hswap f.swapLctlLgui 0x01 0x08 0x11 0x09 _ (by decide)
      (hswap f.swapRaltRgui 0x14 0x18 0x14 0x0C _ (by decide)
        (hswap f.swapLaltLgui 0x04 0x08 0x14 0x0C _ (by decide) h)))
  rw [modConfig]
  by_cases hgui : f.noGui = true
  · rw [if_pos hgui]
    exact Nat.lt_of_le_of_lt (Nat.le_trans Nat.and_le_left Nat.and_le_left) hmods
  · rw [if_neg hgui]
    exact hmods

end Actions

section Locked

variable {cfg : LayerConfig} {layer : Nat}

theorem layerBit_getLsbD (i : Nat) :
    (layerBit cfg layer).getLsbD i = true ↔ i = layer ∧ layer < cfg.layerStateType.width := by
  have h := Lib.getLsbD_or_one_shiftLeft (0 : LayerState cfg) layer i
  rw [BitVec.ofNat_eq_ofNat, BitVec.zero_or, BitVec.getLsbD_zero] at h
  exact h.trans (or_iff_right Bool.false_ne_true)

theorem ext_bits {x y : LayerState cfg} (h : ∀ i, x.getLsbD i = true ↔ y.getLsbD i = true) : x = y :=
  BitVec.eq_of_getLsbD_eq fun i _ => Bool.eq_iff_iff.mpr (h i)

variable (x : LayerState cfg)

theorem getLsbD_and_not_bit (i : Nat) :
    (x &&& ~~~layerBit cfg layer).getLsbD i = true ↔ x.getLsbD i = true ∧ i ≠ layer :=
  Lib.getLsbD_and_not_one_shiftLeft x layer i

theorem getLsbD_or_bit (i : Nat) :
    (x ||| layerBit cfg layer).getLsbD i = true ↔ x.getLsbD i = true ∨ i = layer ∧ layer < cfg.layerStateType.width :=
  Lib.getLsbD_or_one_shiftLeft x layer i

theorem getLsbD_and' (y : LayerState cfg) (i : Nat) :
    (x &&& y).getLsbD i = true ↔ x.getLsbD i = true ∧ y.getLsbD i = true := by
  rw [BitVec.getLsbD_and, Bool.and_eq_true]

theorem and_bit_eq_zero_iff : x &&& layerBit cfg layer = 0 ↔ x.getLsbD layer = false := by
  constructor
  · intro h
    by_contra hset
    have hset' := Bool.not_eq_false _ ▸ hset
    have hbit : (x &&& layerBit cfg layer).getLsbD layer = true :=
      (getLsbD_and' _ _ _).mpr ⟨hset', (layerBit_getLsbD layer).mpr ⟨rfl, BitVec.lt_of_getLsbD hset'⟩⟩
    rw [h] at hbit
    exact absurd hbit (by simp)
  · intro h
    refine ext_bits fun i => iff_of_false ?_ (by simp)
    rw [getLsbD_and', layerBit_getLsbD]
    rintro ⟨hx, rfl, -⟩
    rw [h] at hx
    exact Bool.false_ne_true hx

theorem xor_bit_of_set {x : LayerState cfg} (h : x.getLsbD layer = true) :
    x ^^^ layerBit cfg layer = x &&& ~~~layerBit cfg layer := by
  refine ext_bits fun i => ?_
  rw [getLsbD_and_not_bit, BitVec.getLsbD_xor]
  by_cases hi : i = layer
  · subst hi
    have hbit : (layerBit cfg i).getLsbD i = true := (layerBit_getLsbD i).mpr ⟨rfl, BitVec.lt_of_getLsbD h⟩
    rw [h, hbit]
    simp
  · have hbit : (layerBit cfg layer).getLsbD i = false :=
      Bool.eq_false_iff.mpr fun hset => hi ((layerBit_getLsbD i).mp hset).1
    rw [hbit, Bool.xor_false, and_iff_left hi]

theorem xor_bit_of_clear {x : LayerState cfg} (h : x.getLsbD layer = false) :
    x ^^^ layerBit cfg layer = x ||| layerBit cfg layer := by
  refine ext_bits fun i => ?_
  rw [BitVec.getLsbD_xor, BitVec.getLsbD_or]
  by_cases hi : i = layer
  · subst hi
    rw [h, Bool.false_xor, Bool.false_or]
  · have hbit : (layerBit cfg layer).getLsbD i = false :=
      Bool.eq_false_iff.mpr fun hset => hi ((layerBit_getLsbD i).mp hset).1
    rw [hbit, Bool.xor_false, Bool.or_false]

namespace LayerLock

variable {s : LayerLock cfg}

def LockedOn (s : LayerLock cfg) : Prop :=
  ∀ i, s.lockedLayers.getLsbD i = true → s.keyboard.layerState.getLsbD i = true

theorem sync_keyboard : s.sync.keyboard = s.keyboard := by
  unfold sync
  split <;> rfl

theorem sync_locked : s.sync.lockedLayers = s.lockedLayers &&& s.keyboard.layerState := by
  unfold sync
  split
  · rfl
  · rename_i h
    refine ext_bits fun i => ?_
    rw [getLsbD_and']
    refine ⟨fun hset => ⟨hset, ?_⟩, And.left⟩
    by_contra hoff
    have hlost : (s.lockedLayers &&& ~~~s.keyboard.layerState).getLsbD i = true := by
      rw [BitVec.getLsbD_and, BitVec.getLsbD_not, hset, Bool.eq_false_iff.mpr hoff]
      simpa using BitVec.lt_of_getLsbD hset
    rw [Classical.not_not.mp h] at hlost
    exact absurd hlost (by simp)

theorem sync_lockedOn : s.sync.LockedOn := by
  intro i hset
  rw [sync_locked, getLsbD_and'] at hset
  rw [sync_keyboard]
  exact hset.2

theorem isLayerLocked_iff : s.IsLayerLocked layer ↔ s.lockedLayers.getLsbD layer = true := by
  rw [IsLayerLocked, Ne, and_bit_eq_zero_iff, Bool.not_eq_false]

theorem sync_isLayerLocked :
    s.sync.IsLayerLocked layer ↔ s.IsLayerLocked layer ∧ s.keyboard.layerState.getLsbD layer = true := by
  rw [isLayerLocked_iff, isLayerLocked_iff, sync_locked, getLsbD_and']

theorem layerLockInvert_lockedOn (h : s.LockedOn) : (s.layerLockInvert layer).LockedOn := by
  intro i hset
  unfold layerLockInvert at hset ⊢
  by_cases hlocked : s.lockedLayers &&& layerBit cfg layer = 0
  · rw [if_pos hlocked] at hset ⊢
    have hset' : (s.lockedLayers ||| layerBit cfg layer).getLsbD i = true :=
      xor_bit_of_clear ((and_bit_eq_zero_iff _).mp hlocked) ▸ hset
    refine (getLsbD_or_bit _ i).mpr ?_
    exact ((getLsbD_or_bit _ i).mp hset').imp_left (h i)
  · rw [if_neg hlocked] at hset ⊢
    have hclear : (s.lockedLayers &&& ~~~layerBit cfg layer).getLsbD i = true :=
      xor_bit_of_set (isLayerLocked_iff.mp hlocked) ▸ hset
    refine (getLsbD_and_not_bit _ i).mpr ?_
    exact ((getLsbD_and_not_bit _ i).mp hclear).imp_left (h i)

theorem handleMoOrTt_lockedOn (h : s.LockedOn) (pressed : Bool) : (s.handleMoOrTt layer pressed).2.LockedOn := by
  rw [handleMoOrTt]
  by_cases hlocked : s.IsLayerLocked layer
  · rw [if_pos hlocked]
    cases pressed with
    | false => exact h
    | true => exact layerLockInvert_lockedOn h
  · rw [if_neg hlocked]
    exact h

theorem processLayerLock_lockedOn (keycode : Nat) (pressed : Bool) (tapCount : Nat) :
    (s.processLayerLock keycode pressed tapCount).2.LockedOn := by
  have hsync : s.sync.LockedOn := sync_lockedOn
  rw [processLayerLock]
  by_cases hlock : keycode = qkLayerLock
  · rw [if_pos hlock]
    cases pressed with
    | false => exact hsync
    | true => exact layerLockInvert_lockedOn hsync
  rw [if_neg hlock]
  by_cases hmo : IsMomentary keycode
  · rw [if_pos hmo]
    exact handleMoOrTt_lockedOn hsync pressed
  rw [if_neg hmo]
  by_cases htt : IsLayerTapToggle keycode
  · rw [if_pos htt]
    exact handleMoOrTt_lockedOn hsync pressed
  rw [if_neg htt]
  by_cases hlm : IsLayerMod keycode
  · rw [if_pos hlm]
    by_cases hlocked : s.sync.IsLayerLocked (layerModLayer keycode)
    · rw [if_pos hlocked]
      cases pressed with
      | false => exact hsync
      | true => exact layerLockInvert_lockedOn hsync
    · rw [if_neg hlocked]
      exact hsync
  rw [if_neg hlm]
  split_ifs <;> exact hsync

/-- An event of a key that unlocks its layer with its press. -/
structure Unlocks (cfg : LayerConfig) (keycode layer tapCount : Nat) : Prop where
  press : ∀ s : LayerLock cfg, s.processLayerLock keycode true tapCount =
    if s.sync.IsLayerLocked layer then (false, s.sync.layerLockInvert layer) else (true, s.sync)
  release : ∀ s : LayerLock cfg, ¬ s.sync.IsLayerLocked layer →
    s.processLayerLock keycode false tapCount = (true, s.sync)

/-- What the layers are behind the key: its own is off and unlocked, the others as they were. -/
structure Unlocked (layer : Nat) (s t : LayerLock cfg) : Prop where
  layers : t.keyboard.layerState = s.keyboard.layerState &&& ~~~layerBit cfg layer
  locked : t.lockedLayers = s.lockedLayers &&& s.keyboard.layerState &&& ~~~layerBit cfg layer

theorem layerLockInvert_unlocked (h : s.sync.IsLayerLocked layer) :
    Unlocked layer s (s.sync.layerLockInvert layer) := by
  have hset := isLayerLocked_iff.mp h
  rw [layerLockInvert, if_neg h]
  refine ⟨?_, ?_⟩
  · show s.sync.keyboard.layerState &&& _ = _
    rw [sync_keyboard]
  · show s.sync.lockedLayers ^^^ _ = _
    rw [xor_bit_of_set hset, sync_locked]

theorem locked_and_not_bit (h : s.keyboard.layerState.getLsbD layer ≠ true) :
    s.lockedLayers &&& s.keyboard.layerState &&& ~~~layerBit cfg layer = s.lockedLayers &&& s.keyboard.layerState := by
  refine ext_bits fun i => ?_
  rw [getLsbD_and_not_bit, getLsbD_and']
  exact and_iff_left_of_imp fun hset heq => h (heq ▸ hset.2)

theorem and_not_bit_of_clear {x : LayerState cfg} (h : x.getLsbD layer ≠ true) : x &&& ~~~layerBit cfg layer = x := by
  refine ext_bits fun i => ?_
  rw [getLsbD_and_not_bit]
  exact and_iff_left_of_imp fun hset heq => h (heq ▸ hset)

theorem or_bit_and_not_bit (x : LayerState cfg) :
    (x ||| layerBit cfg layer) &&& ~~~layerBit cfg layer = x &&& ~~~layerBit cfg layer := by
  refine ext_bits fun i => ?_
  rw [getLsbD_and_not_bit, getLsbD_and_not_bit, getLsbD_or_bit]
  constructor
  · rintro ⟨hset | ⟨hi, -⟩, hne⟩
    · exact ⟨hset, hne⟩
    · exact absurd hi hne
  · exact fun hset => ⟨.inl hset.1, hset.2⟩

theorem sync_of_lockedOn (h : s.LockedOn) : s.sync = s := by
  have hnone : s.lockedLayers &&& ~~~s.keyboard.layerState = 0 := by
    refine ext_bits fun i => iff_of_false ?_ (by simp)
    rw [BitVec.getLsbD_and, BitVec.getLsbD_not, Bool.and_eq_true, Bool.and_eq_true]
    rintro ⟨hset, -, hoff⟩
    rw [h i hset] at hoff
    exact absurd hoff (by decide)
  rw [sync, if_neg (not_not_intro hnone)]

theorem release_of_unlocked {acfg : ActionConfig cfg} {f : MagicFlags} {keycode tapCount : Nat} {t : LayerLock cfg}
    (hkey : Unlocks cfg keycode layer tapCount) (hon : t.LockedOn) (hclear : t.lockedLayers.getLsbD layer ≠ true) :
    t.processLayerKey acfg f keycode false tapCount =
      { t with keyboard := processAction acfg (layerKeyAction f keycode) false tapCount t.keyboard } := by
  have hsync := sync_of_lockedOn hon
  rw [processLayerKey, hkey.release t (by rw [hsync, isLayerLocked_iff]; exact hclear), hsync]
  rfl

section Keys

variable {acfg : ActionConfig cfg} {f : MagicFlags} {keycode tapCount : Nat}

theorem Unlocks.press_locked (hkey : Unlocks cfg keycode layer tapCount) (h : s.sync.IsLayerLocked layer) :
    s.processLayerKey acfg f keycode true tapCount = s.sync.layerLockInvert layer := by
  rw [processLayerKey, hkey.press, if_pos h]
  rfl

theorem Unlocks.press_unlocked (hkey : Unlocks cfg keycode layer tapCount) (h : ¬ s.sync.IsLayerLocked layer) :
    s.processLayerKey acfg f keycode true tapCount =
      { s.sync with keyboard := processAction acfg (layerKeyAction f keycode) true tapCount s.keyboard } := by
  rw [processLayerKey, hkey.press, if_neg h]
  show { s.sync with keyboard := processAction acfg (layerKeyAction f keycode) true tapCount s.sync.keyboard } = _
  rw [sync_keyboard]

theorem Unlocked.clear {t : LayerLock cfg} (h : Unlocked layer s t) : t.lockedLayers.getLsbD layer ≠ true := by
  rw [h.locked, Ne, getLsbD_and_not_bit]
  exact fun hset => hset.2 rfl

theorem off_of_not_sync (hlocked : s.IsLayerLocked layer) (h : ¬ s.sync.IsLayerLocked layer) :
    s.keyboard.layerState.getLsbD layer ≠ true := fun hset => h (sync_isLayerLocked.mpr ⟨hlocked, hset⟩)

theorem Unlocks.hold (hkey : Unlocks cfg keycode layer tapCount)
    (haction : ∀ pressed (k : Keyboard cfg),
      (processAction acfg (layerKeyAction f keycode) pressed tapCount k).layerState =
        if pressed then k.layerState ||| layerBit cfg layer else k.layerState &&& ~~~layerBit cfg layer)
    (hlocked : s.IsLayerLocked layer) : Unlocked layer s (s.pressRelease acfg f keycode tapCount) := by
  rw [pressRelease]
  by_cases hsync : s.sync.IsLayerLocked layer
  · have hunlocked := layerLockInvert_unlocked hsync
    rw [hkey.press_locked hsync,
      release_of_unlocked hkey (layerLockInvert_lockedOn sync_lockedOn) hunlocked.clear]
    refine ⟨?_, hunlocked.locked⟩
    refine (haction false _).trans ?_
    rw [if_neg Bool.false_ne_true, hunlocked.layers]
    refine and_not_bit_of_clear fun hset => ?_
    exact ((getLsbD_and_not_bit _ _).mp hset).2 rfl
  · have hoff := off_of_not_sync hlocked hsync
    have hpressed := haction true s.keyboard
    rw [if_pos rfl] at hpressed
    rw [hkey.press_unlocked hsync, release_of_unlocked hkey]
    · refine ⟨?_, sync_locked.trans (locked_and_not_bit hoff).symm⟩
      refine (haction false _).trans ?_
      rw [if_neg Bool.false_ne_true]
      show (processAction acfg (layerKeyAction f keycode) true tapCount s.keyboard).layerState &&& _ = _
      rw [hpressed, or_bit_and_not_bit]
    · intro i hset
      show (processAction acfg (layerKeyAction f keycode) true tapCount s.keyboard).layerState.getLsbD i = true
      rw [hpressed, getLsbD_or_bit]
      rw [sync_locked, getLsbD_and'] at hset
      exact .inl hset.2
    · exact fun hset => hsync (isLayerLocked_iff.mpr hset)

/-- A key whose action does nothing, such as a tap-toggle key behind more taps than it counts. -/
theorem Unlocks.still (hkey : Unlocks cfg keycode layer tapCount)
    (haction : ∀ pressed (k : Keyboard cfg), processAction acfg (layerKeyAction f keycode) pressed tapCount k = k)
    (hlocked : s.IsLayerLocked layer) : Unlocked layer s (s.pressRelease acfg f keycode tapCount) := by
  rw [pressRelease]
  by_cases hsync : s.sync.IsLayerLocked layer
  · have hunlocked := layerLockInvert_unlocked hsync
    rw [hkey.press_locked hsync,
      release_of_unlocked hkey (layerLockInvert_lockedOn sync_lockedOn) hunlocked.clear, haction]
    exact hunlocked
  · have hoff := off_of_not_sync hlocked hsync
    have hpressed : s.processLayerKey acfg f keycode true tapCount = s.sync := by
      rw [hkey.press_unlocked hsync, haction, ← sync_keyboard]
    rw [hpressed, release_of_unlocked hkey sync_lockedOn fun hset => hsync (isLayerLocked_iff.mpr hset), haction]
    refine ⟨?_, sync_locked.trans (locked_and_not_bit hoff).symm⟩
    show s.sync.keyboard.layerState = _
    rw [sync_keyboard, and_not_bit_of_clear hoff]

theorem not_lock_of_le {keycode : Nat} (h : keycode ≤ 0x52DF) : keycode ≠ qkLayerLock := by
  rw [qkLayerLock]
  omega

theorem unlocks_of_mo (h : IsMomentary keycode ∨ IsLayerTapToggle keycode) :
    Unlocks cfg keycode (momentaryLayer keycode) tapCount := by
  have hprocess (s : LayerLock cfg) (pressed : Bool) : s.processLayerLock keycode pressed tapCount =
      s.sync.handleMoOrTt (momentaryLayer keycode) pressed := by
    rw [processLayerLock]
    rcases h with h | h
    · rw [if_neg (not_lock_of_le (Nat.le_trans h.2 (by decide))), if_pos h]
    · have hmo : ¬ IsMomentary keycode := fun hmo => by
        have := hmo.2
        have := h.1
        omega
      rw [if_neg (not_lock_of_le h.2), if_neg hmo, if_pos h]
  refine ⟨fun s => ?_, fun s hlocked => ?_⟩
  · rw [hprocess, handleMoOrTt]
    rfl
  · rw [hprocess, handleMoOrTt, if_neg hlocked]

theorem unlocks_of_lm (h : IsLayerMod keycode) : Unlocks cfg keycode (layerModLayer keycode) tapCount := by
  have hle := h.2
  have hmo : ¬ IsMomentary keycode := fun hmo => by
    have := hmo.1
    omega
  have htt : ¬ IsLayerTapToggle keycode := fun htt => by
    have := htt.1
    omega
  refine ⟨fun s => ?_, fun s hlocked => ?_⟩
  · rw [processLayerLock, if_neg (not_lock_of_le (Nat.le_trans hle (by decide))), if_neg hmo, if_neg htt, if_pos h]
    rfl
  · rw [processLayerLock, if_neg (not_lock_of_le (Nat.le_trans hle (by decide))), if_neg hmo, if_neg htt, if_pos h,
      if_neg hlocked]

/-- The press of a held layer-tap key is left to its action, and so is the release where the layer is not locked. -/
theorem processLayerLock_lt (h : IsLayerTap keycode) (pressed : Bool) :
    s.processLayerLock keycode pressed 0 =
      (if pressed = false ∧ s.sync.IsLayerLocked (layerTapLayer keycode) then (false, s.sync) else (true, s.sync)) := by
  have hle := h.2
  have hmo : ¬ IsMomentary keycode := fun hmo => by
    have := hmo.1
    omega
  have htt : ¬ IsLayerTapToggle keycode := fun htt => by
    have := htt.1
    omega
  have hlm : ¬ IsLayerMod keycode := fun hlm => by
    have := hlm.1
    omega
  rw [processLayerLock, if_neg (not_lock_of_le (Nat.le_trans hle (by decide))), if_neg hmo, if_neg htt, if_neg hlm,
    if_pos h]
  simp only [true_and]

theorem lt_press (h : IsLayerTap keycode) : s.processLayerLock keycode true 0 = (true, s.sync) := by
  rw [processLayerLock_lt h, if_neg fun hreleased => Bool.false_ne_true hreleased.1.symm]

theorem lt_release_locked (h : IsLayerTap keycode) (hsync : s.sync.IsLayerLocked (layerTapLayer keycode)) :
    s.processLayerLock keycode false 0 = (false, s.sync) := by
  rw [processLayerLock_lt h, if_pos ⟨rfl, hsync⟩]

theorem lt_release_unlocked (h : IsLayerTap keycode) (hsync : ¬ s.sync.IsLayerLocked (layerTapLayer keycode)) :
    s.processLayerLock keycode false 0 = (true, s.sync) := by
  rw [processLayerLock_lt h, if_neg fun hreleased => hsync hreleased.2]

theorem momentaryLayer_lt (keycode : Nat) : momentaryLayer keycode < 32 := Nat.mod_lt _ (by decide)

theorem layerModLayer_lt (keycode : Nat) : layerModLayer keycode < 16 := Nat.mod_lt _ (by decide)

theorem mo_action (h : IsMomentary keycode) (pressed : Bool) (k : Keyboard cfg) :
    (processAction acfg (layerKeyAction f keycode) pressed tapCount k).layerState =
      if pressed then k.layerState ||| layerBit cfg (momentaryLayer keycode)
      else k.layerState &&& ~~~layerBit cfg (momentaryLayer keycode) := by
  have hlt : ¬ IsLayerTap keycode := fun hlt => by
    have := hlt.2
    have := h.1
    omega
  rw [layerKeyAction, if_neg hlt, if_pos h,
    processAction_layerTap (momentaryLayer_lt keycode) (by decide) (by decide)]
  cases pressed <;> rfl

theorem tt_action (h : IsLayerTapToggle keycode) (htaps : acfg.tappingToggle < tapCount) (pressed : Bool)
    (k : Keyboard cfg) : processAction acfg (layerKeyAction f keycode) pressed tapCount k = k := by
  have hlt : ¬ IsLayerTap keycode := fun hlt => by
    have := hlt.2
    have := h.1
    omega
  have hmo : ¬ IsMomentary keycode := fun hmo => by
    have := hmo.2
    have := h.1
    omega
  rw [layerKeyAction, if_neg hlt, if_neg hmo, if_pos h,
    processAction_layerTap (momentaryLayer_lt keycode) (by decide) (by decide), processLayerTap, if_pos rfl]
  cases pressed with
  | false => exact if_neg (Nat.not_le.mpr htaps)
  | true => exact if_neg (Nat.not_lt.mpr (Nat.le_of_lt htaps))

theorem lm_action (h : IsLayerMod keycode)
    (hnames : NamesItsLayer (layerModLayer keycode) (modConfig f (keycode % 32))) (pressed : Bool) (k : Keyboard cfg) :
    (processAction acfg (layerKeyAction f keycode) pressed tapCount k).layerState =
      if pressed then k.layerState ||| layerBit cfg (layerModLayer keycode)
      else k.layerState &&& ~~~layerBit cfg (layerModLayer keycode) := by
  have hle := h.1
  have hlt : ¬ IsLayerTap keycode := fun hlt => by
    have := hlt.2
    omega
  have hmo : ¬ IsMomentary keycode := fun hmo => by
    have := hmo.1
    have := h.2
    omega
  have htt : ¬ IsLayerTapToggle keycode := fun htt => by
    have := htt.1
    have := h.2
    omega
  rw [layerKeyAction, if_neg hlt, if_neg hmo, if_neg htt, if_pos h, processAction_layerMod (layerModLayer_lt keycode)
    (modConfig_lt f (Nat.mod_lt _ (by decide))) hnames]
  rfl

theorem lt_action (h : IsLayerTap keycode) (hkey : keycode % 256 < 0xF0) (pressed : Bool) (k : Keyboard cfg) :
    processAction acfg (layerKeyAction f keycode) pressed 0 k =
      if pressed then k.layerOn (layerTapLayer keycode) else k.layerOff (layerTapLayer keycode) := by
  have hconfig := keycodeConfig_lt f (Nat.le_refl 0xF0) hkey
  have hlayer : layerTapLayer keycode < 16 := Nat.mod_lt _ (by decide)
  rw [layerKeyAction, if_pos h]
  generalize keycodeConfig f (keycode % 256) = key at hconfig ⊢
  rw [processAction_layerTap (by omega) (by omega) (by rw [opOneshot]; omega), processLayerTap,
    if_neg (by rw [opTapToggle]; omega), if_neg (by rw [opOnOff]; omega), if_neg (by rw [opOffOn]; omega),
    if_neg (by rw [opSetClear]; omega)]
  rfl

/-- The layers are as they were, and those that were on are locked as before. -/
structure StaysLocked (s t : LayerLock cfg) : Prop where
  layers : t.keyboard.layerState = s.keyboard.layerState
  locked : t.lockedLayers = s.lockedLayers &&& s.keyboard.layerState

theorem or_bit_of_set {x : LayerState cfg} (h : x.getLsbD layer = true) : x ||| layerBit cfg layer = x := by
  refine ext_bits fun i => ?_
  rw [getLsbD_or_bit]
  exact or_iff_left_of_imp fun hi => hi.1 ▸ h

theorem lt_staysLocked (h : IsLayerTap keycode) (hkey : keycode % 256 < 0xF0)
    (hlocked : s.IsLayerLocked (layerTapLayer keycode)) : StaysLocked s (s.pressRelease acfg f keycode 0) := by
  obtain ⟨t, ht⟩ : ∃ t : LayerLock cfg, t = { s.sync with keyboard := s.keyboard.layerOn (layerTapLayer keycode) } :=
    ⟨_, rfl⟩
  have hpress : s.processLayerKey acfg f keycode true 0 = t := by
    rw [processLayerKey, lt_press h, if_pos rfl, ht]
    simp only [lt_action h hkey, if_true, sync_keyboard]
  have hlayers : t.keyboard.layerState = s.keyboard.layerState ||| layerBit cfg (layerTapLayer keycode) := by
    rw [ht]
    rfl
  have htlocked : t.lockedLayers = s.lockedLayers &&& s.keyboard.layerState := by
    rw [ht]
    exact sync_locked
  have hon : t.LockedOn := by
    intro i hset
    rw [htlocked, getLsbD_and'] at hset
    rw [hlayers, getLsbD_or_bit]
    exact .inl hset.2
  have hsame := sync_of_lockedOn hon
  have hiff : t.sync.IsLayerLocked (layerTapLayer keycode) ↔ s.sync.IsLayerLocked (layerTapLayer keycode) := by
    rw [hsame, isLayerLocked_iff, isLayerLocked_iff, htlocked, sync_locked]
  rw [pressRelease, hpress, processLayerKey]
  by_cases hsync : s.sync.IsLayerLocked (layerTapLayer keycode)
  · rw [lt_release_locked h (hiff.mpr hsync), hsame]
    refine ⟨?_, htlocked⟩
    exact hlayers.trans (or_bit_of_set (sync_isLayerLocked.mp hsync).2)
  · rw [lt_release_unlocked h fun hset => hsync (hiff.mp hset), hsame]
    have hoff := off_of_not_sync hlocked hsync
    refine ⟨?_, htlocked⟩
    show (processAction acfg _ false 0 t.keyboard).layerState = _
    rw [lt_action h hkey, if_neg Bool.false_ne_true]
    show t.keyboard.layerState &&& _ = _
    rw [hlayers, or_bit_and_not_bit, and_not_bit_of_clear hoff]

end Keys

end LayerLock

open LayerLock

/-- Momentary keys, layer-mod keys that name their layer, and tap-toggle keys that have been tapped more often than they
count leave a locked layer unlocked and off. A held layer-tap key leaves it as it was. -/
theorem layer_lock_release (acfg : ActionConfig cfg) (f : MagicFlags) (s : LayerLock cfg) :
    (∀ keycode pressed tapCount, (s.processLayerLock keycode pressed tapCount).2.LockedOn) ∧
    (∀ keycode tapCount, IsMomentary keycode → s.IsLayerLocked (momentaryLayer keycode) →
      Unlocked (momentaryLayer keycode) s (s.pressRelease acfg f keycode tapCount)) ∧
    (∀ keycode tapCount, IsLayerTapToggle keycode → s.IsLayerLocked (momentaryLayer keycode) →
      acfg.tappingToggle < tapCount → Unlocked (momentaryLayer keycode) s (s.pressRelease acfg f keycode tapCount)) ∧
    (∀ keycode tapCount, IsLayerMod keycode → s.IsLayerLocked (layerModLayer keycode) →
      NamesItsLayer (layerModLayer keycode) (modConfig f (keycode % 32)) →
      Unlocked (layerModLayer keycode) s (s.pressRelease acfg f keycode tapCount)) ∧
    (∀ keycode, IsLayerTap keycode → keycode % 256 < 0xF0 → s.IsLayerLocked (layerTapLayer keycode) →
      StaysLocked s (s.pressRelease acfg f keycode 0)) := by
  refine ⟨processLayerLock_lockedOn, fun keycode tapCount h hlocked => ?_, fun keycode tapCount h hlocked htaps => ?_,
    fun keycode tapCount h hlocked hnames => ?_, fun keycode h hkey hlocked => lt_staysLocked h hkey hlocked⟩
  · exact (unlocks_of_mo (.inl h)).hold (mo_action h) hlocked
  · exact (unlocks_of_mo (.inr h)).still (tt_action h htaps) hlocked
  · exact (unlocks_of_lm h).hold (lm_action h hnames) hlocked

end Locked

def eightLayers : LayerConfig := ⟨1, 1, false, .bit8, 8, fun _ _ => 0, fun _ => 0⟩

def plainActions : ActionConfig eightLayers := ⟨5, fun _ _ _ k => k⟩

def noMagic : MagicFlags := ⟨false, false, false, false, false, false, false, false, false, false⟩

def lockedOne : LayerLock eightLayers := ⟨⟨0b1010, 1, List.replicate 6 0, 0, 0⟩, 0b10, 0⟩

theorem layer_lock_release_mo : LayerLock.Unlocked 1 lockedOne (lockedOne.pressRelease plainActions noMagic 0x5221 0) :=
  (layer_lock_release plainActions noMagic lockedOne).2.1 0x5221 0 ⟨by decide, by decide⟩ (by decide)

/-- `LT(1, KC_A)` is held and let go. -/
theorem layer_lock_lt_keeps : lockedOne.IsLayerLocked (layerTapLayer 0x4104) ∧
    (lockedOne.pressRelease plainActions noMagic 0x4104 0).lockedLayers = lockedOne.lockedLayers ∧
    ¬ LayerLock.Unlocked 1 lockedOne (lockedOne.pressRelease plainActions noMagic 0x4104 0) :=
  ⟨by decide, by decide, fun h => absurd h.locked (by decide)⟩

end Keys
end VialQmk
