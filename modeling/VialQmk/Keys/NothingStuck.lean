import VialQmk.Keys.UnlockRelease
import VialQmk.Lib.BitsWithin
import Mathlib.Logic.Relation

/-!
# Keys.NothingStuck

Whole runs of `process_record`: presses and releases of any keys of the matrix in any order, on a keymap and layers that
stay what the keys make of them.

* `Item`: a key or a modifier of the report, or a layer.
* `processAction_press`, `processAction_release_on`: an action turns on what it holds, or what it leaves on by design.
* `on_held`: in each run, what is on is held by a key that is down.
-/

namespace VialQmk
namespace Keys

open Lib

inductive Item where
  | key (code : Nat)
  | realMod (i : Nat)
  | weakMod (i : Nat)
  | layer (i : Nat)
deriving DecidableEq, Repr

namespace Item

def IsReal (mods : Mods) : Item → Prop
  | realMod i => mods.getLsbD i = true
  | _ => False

def IsWeak (mods : Mods) : Item → Prop
  | weakMod i => mods.getLsbD i = true
  | _ => False

def IsRegistered (code : Nat) : Item → Prop
  | key c => IsBasicKeycode code ∧ c = code
  | realMod i => IsModifierKeycode code ∧ (modBit code).getLsbD i = true
  | _ => False

end Item

section Action

variable {cfg : LayerConfig} {acfg : ActionConfig cfg} {s : Keyboard cfg} {item : Item}

def Keyboard.On (s : Keyboard cfg) : Item → Prop
  | .key code => code ≠ 0 ∧ code ∈ s.keys
  | .realMod i => s.realMods.getLsbD i = true
  | .weakMod i => s.weakMods.getLsbD i = true
  | .layer i => s.layerState.getLsbD i = true

def KeyHolds (mods : Mods) (code : Nat) (item : Item) : Prop :=
  item.IsRegistered code ∨
    if IsModifierKeycode code ∨ code = kcNo then item.IsReal mods else item.IsWeak mods

def ModsTapHolds (acfg : ActionConfig cfg) (mods : Mods) (code tapCount : Nat) (item : Item) : Prop :=
  if code = modsTapToggle then tapCount < acfg.tappingToggle ∧ item.IsReal mods
  else if tapCount > 0 then item.IsRegistered code else item.IsReal mods

def LayerTapHolds (layer code tapCount : Nat) (item : Item) : Prop :=
  if code = opOnOff then item = .layer layer
  else if code = opTapToggle ∨ code = opOffOn ∨ code = opSetClear then False
  else if tapCount > 0 then item.IsRegistered code else item = .layer layer

open ActionCode

def HeldFor (acfg : ActionConfig cfg) (code tapCount : Nat) (item : Item) : Prop :=
  let left : Mods := BitVec.ofNat 8 (keyMods code)
  if kindId code = actMods then KeyHolds left (keyCode code) item
  else if kindId code = actRmods then KeyHolds (left <<< 4) (keyCode code) item
  else if kindId code = actLmodsTap ∧ keyCode code ≠ modsOneshot then
    ModsTapHolds acfg left (keyCode code) tapCount item
  else if kindId code = actRmodsTap ∧ keyCode code ≠ modsOneshot then
    ModsTapHolds acfg (left <<< 4) (keyCode code) tapCount item
  else if kindId code = actLayer then False
  else if kindId code = actLayerMods then
    item.IsReal (BitVec.ofNat 8 (layerModsMods code)) ∨ item = .layer (layerModsLayer code)
  else if (kindId code = actLayerTap ∨ kindId code = actLayerTapExt) ∧ keyCode code ≠ opOneshot then
    LayerTapHolds (layerTapVal code) (keyCode code) tapCount item
  else False

def TurnsOnLayer (cfg : LayerConfig) (code : Nat) (item : Item) : Prop :=
  let shift := code / 32 % 8 * 4
  let bits : LayerState cfg := BitVec.ofNat _ (code % 16) <<< shift
  let mask : LayerState cfg := if code / 16 % 2 = 1 then ~~~(0xF#_ <<< shift) else 0
  code / 256 % 4 ≠ 0 ∧ code / 1024 % 4 ≠ 0 ∧ ∃ i, item = .layer i ∧ (bits ||| mask).getLsbD i = true

/-- The keys that switch something on for longer: a modifier toggled by taps, and the layer keys other than the
momentary ones and the layer-tap keys, with the layers that they switch on. -/
def Lasting (acfg : ActionConfig cfg) (code tapCount : Nat) (item : Item) : Prop :=
  let left : Mods := BitVec.ofNat 8 (keyMods code)
  (kindId code = actLmodsTap ∧ keyCode code = modsTapToggle ∧ ¬ tapCount < acfg.tappingToggle ∧ item.IsReal left) ∨
  (kindId code = actRmodsTap ∧ keyCode code = modsTapToggle ∧ ¬ tapCount < acfg.tappingToggle ∧
    item.IsReal (left <<< 4)) ∨
  (kindId code = actLayer ∧ TurnsOnLayer cfg code item) ∨
  ((kindId code = actLayerTap ∨ kindId code = actLayerTapExt) ∧
    (keyCode code = opTapToggle ∨ keyCode code = opOffOn ∨ keyCode code = opSetClear) ∧
    item = .layer (layerTapVal code))

theorem bit_off {w : Nat} {x mask : BitVec w} (h : x &&& mask = 0) {i : Nat} (hmask : mask.getLsbD i = true) :
    ¬ x.getLsbD i = true :=
  fun hon => absurd hmask (by rw [and_eq_zero_iff_getLsbD.mp h i hon]; decide)

theorem bit_or {w : Nat} {x mask : BitVec w} {i : Nat} (h : (x ||| mask).getLsbD i = true) :
    x.getLsbD i = true ∨ mask.getLsbD i = true := by
  rwa [BitVec.getLsbD_or, Bool.or_eq_true] at h

theorem bit_without {w : Nat} {x mask : BitVec w} {i : Nat} (h : (x &&& ~~~mask).getLsbD i = true) :
    x.getLsbD i = true := by
  rw [BitVec.getLsbD_and, Bool.and_eq_true] at h
  exact h.1

theorem not_real_of_undone {mods : Mods} (h : s.realMods &&& mods = 0) (hitem : item.IsReal mods) : ¬ s.On item := by
  cases item with
  | realMod i => exact bit_off h hitem
  | _ => exact hitem.elim

theorem not_weak_of_undone {mods : Mods} (h : s.weakMods &&& mods = 0) (hitem : item.IsWeak mods) : ¬ s.On item := by
  cases item with
  | weakMod i => exact bit_off h hitem
  | _ => exact hitem.elim

theorem not_layer_of_undone {layer : Nat} (h : s.layerState &&& layerBit cfg layer = 0) : ¬ s.On (.layer layer) := by
  intro hon
  have hwidth : layer < cfg.layerStateType.width := BitVec.lt_of_getLsbD hon
  refine bit_off h ?_ hon
  rw [layerBit, BitVec.getLsbD_shiftLeft]
  simp [hwidth]
  omega

theorem not_registered_of_unregistered {code : Nat} (h : Unregistered code s) (hitem : item.IsRegistered code) :
    ¬ s.On item := by
  cases item with
  | key c =>
    obtain ⟨hbasic, rfl⟩ := hitem
    exact fun hon => h.1 hbasic hon.2
  | realMod i => exact bit_off (h.2 hitem.1) hitem.2
  | _ => exact hitem.elim

theorem not_on_of_undone {code tapCount : Nat} (h : Undone acfg code tapCount s)
    (hholds : HeldFor acfg code tapCount item) : ¬ s.On item := by
  have hkey : ∀ {mods : Mods} {c : Nat}, KeyUndone mods c s → KeyHolds mods c item → ¬ s.On item := by
    rintro mods c ⟨hun, hmods⟩ (hreg | hheld)
    · exact not_registered_of_unregistered hun hreg
    · split at hmods
      · rename_i hstrong
        rw [if_pos hstrong] at hheld
        exact not_real_of_undone hmods hheld
      · rename_i hweak
        rw [if_neg hweak] at hheld
        exact not_weak_of_undone hmods hheld
  have hmodsTap : ∀ {mods : Mods} {c : Nat}, ModsTapUndone acfg mods c tapCount s →
      ModsTapHolds acfg mods c tapCount item → ¬ s.On item := by
    intro mods c hundone hheld
    unfold ModsTapUndone at hundone
    unfold ModsTapHolds at hheld
    split_ifs at hundone hheld
    · exact not_real_of_undone (hundone hheld.1) hheld.2
    · exact not_registered_of_unregistered hundone hheld
    · exact not_real_of_undone hundone hheld
  have hlayerTap : ∀ {layer c : Nat}, LayerTapUndone layer c tapCount s →
      LayerTapHolds layer c tapCount item → ¬ s.On item := by
    intro layer c hundone hheld
    unfold LayerTapUndone at hundone
    unfold LayerTapHolds at hheld
    split_ifs at hundone hheld
    · exact hheld ▸ not_layer_of_undone hundone
    · exact not_registered_of_unregistered hundone hheld
    · exact hheld ▸ not_layer_of_undone hundone
  simp only [Undone] at h
  simp only [HeldFor] at hholds
  split_ifs at h hholds
  · exact hkey h hholds
  · exact hkey h hholds
  · exact hmodsTap h hholds
  · exact hmodsTap h hholds
  · rcases hholds with hreal | rfl
    · exact not_real_of_undone h.1 hreal
    · exact not_layer_of_undone h.2
  · exact hlayerTap h hholds

def OnlyTurnsOn (p : Item → Prop) (s s' : Keyboard cfg) : Prop := ∀ item, s'.On item → s.On item ∨ p item

namespace OnlyTurnsOn

variable {p q : Item → Prop} {s s' s'' : Keyboard cfg}

theorem rfl : OnlyTurnsOn p s s := fun _ => .inl

theorem trans (h : OnlyTurnsOn p s s') (h' : OnlyTurnsOn p s' s'') : OnlyTurnsOn p s s'' := fun item hon =>
  (h' item hon).elim (h item) .inr

theorem mono (h : OnlyTurnsOn p s s') (hle : ∀ item, p item → q item) : OnlyTurnsOn q s s' := fun item hon =>
  (h item hon).imp_right (hle item)

end OnlyTurnsOn

section Registering

variable (s) {p : Item → Prop}

theorem addMods_on (mods : Mods) : OnlyTurnsOn (Item.IsReal mods) s (s.addMods mods) := by
  intro item hon
  cases item with
  | realMod i => exact bit_or hon
  | _ => exact .inl hon

theorem addWeakMods_on (mods : Mods) : OnlyTurnsOn (Item.IsWeak mods) s (s.addWeakMods mods) := by
  intro item hon
  cases item with
  | weakMod i => exact bit_or hon
  | _ => exact .inl hon

theorem delMods_on (mods : Mods) : OnlyTurnsOn p s (s.delMods mods) := by
  intro item hon
  cases item with
  | realMod i => exact .inl (bit_without hon)
  | _ => exact .inl hon

theorem delWeakMods_on (mods : Mods) : OnlyTurnsOn p s (s.delWeakMods mods) := by
  intro item hon
  cases item with
  | weakMod i => exact .inl (bit_without hon)
  | _ => exact .inl hon

theorem layerOff_on (layer : Nat) : OnlyTurnsOn p s (s.layerOff layer) := by
  intro item hon
  cases item with
  | layer i => exact .inl (bit_without hon)
  | _ => exact .inl hon

theorem layerStateSet_on {state operand : LayerState cfg}
    (h : ∀ i, state.getLsbD i = true → s.layerState.getLsbD i = true ∨ operand.getLsbD i = true) :
    OnlyTurnsOn (fun item => ∃ i, item = .layer i ∧ operand.getLsbD i = true) s (s.layerStateSet state) := by
  intro item hon
  cases item with
  | layer i => exact (h i hon).imp_right fun hbit => ⟨i, rfl, hbit⟩
  | _ => exact .inl hon

theorem layerBit_only {layer : Nat} {item : Item}
    (h : ∃ i, item = .layer i ∧ (layerBit cfg layer).getLsbD i = true) : item = .layer layer := by
  obtain ⟨i, rfl, hone⟩ := h
  rw [layerBit, BitVec.getLsbD_shiftLeft, BitVec.getLsbD_one] at hone
  simp only [Bool.and_eq_true, decide_eq_true_eq, Bool.not_eq_true', decide_eq_false_iff_not] at hone
  exact congrArg Item.layer (by omega)

theorem bit_xor {w : Nat} {x mask : BitVec w} {i : Nat} (h : (x ^^^ mask).getLsbD i = true) :
    x.getLsbD i = true ∨ mask.getLsbD i = true := by
  rw [BitVec.getLsbD_xor] at h
  cases hx : x.getLsbD i with
  | true => exact .inl rfl
  | false =>
    rw [hx, Bool.false_xor] at h
    exact .inr h

theorem layerOn_on (layer : Nat) : OnlyTurnsOn (· = .layer layer) s (s.layerOn layer) :=
  (layerStateSet_on s fun _ => bit_or).mono fun _ => layerBit_only

theorem layerInvert_on (layer : Nat) : OnlyTurnsOn (· = .layer layer) s (s.layerInvert layer) :=
  (layerStateSet_on s fun _ => bit_xor).mono fun _ => layerBit_only

theorem layerMove_on (layer : Nat) : OnlyTurnsOn (· = .layer layer) s (s.layerMove layer) :=
  (layerStateSet_on s fun _ => .inr).mono fun _ => layerBit_only

theorem layerClear_on : OnlyTurnsOn p s s.layerClear := by
  intro item hon
  cases item with
  | layer i =>
    have hbit : (0 : LayerState cfg).getLsbD i = true := hon
    rw [BitVec.ofNat_eq_ofNat, BitVec.getLsbD_zero] at hbit
    cases hbit
  | _ => exact .inl hon

theorem delKey_on {keys : List Nat} {code c : Nat} (hc : c ≠ 0) (h : c ∈ delKey keys code) : c ∈ keys := by
  obtain ⟨slot, hslot, heq⟩ := List.mem_map.mp h
  split at heq
  · exact absurd heq.symm hc
  · exact heq ▸ hslot

theorem addKey_on {keys : List Nat} {code c : Nat} (h : c ∈ addKey keys code) : c ∈ keys ∨ c = code := by
  unfold addKey at h
  split at h
  · exact .inl h
  · exact List.mem_or_eq_of_mem_set h

theorem registerCode_on (code : Nat) : OnlyTurnsOn (Item.IsRegistered code) s (s.registerCode code) := by
  unfold Keyboard.registerCode
  split
  · rename_i hbasic
    intro item hon
    cases item with
    | key c =>
      rcases addKey_on hon.2 with hold | hnew
      · refine .inl ⟨hon.1, ?_⟩
        split at hold
        · exact delKey_on hon.1 hold
        · exact hold
      · exact .inr ⟨hbasic, hnew⟩
    | _ => exact .inl hon
  · split
    · rename_i hmod
      refine (addMods_on s _).mono fun item hitem => ?_
      cases item with
      | realMod i => exact ⟨hmod, hitem⟩
      | _ => exact hitem.elim
    · exact .rfl

theorem unregisterCode_on (code : Nat) : OnlyTurnsOn p s (s.unregisterCode code) := by
  unfold Keyboard.unregisterCode
  split
  · intro item hon
    cases item with
    | key c => exact .inl ⟨hon.1, delKey_on hon.1 hon.2⟩
    | _ => exact .inl hon
  · split
    · exact delMods_on s _
    · exact .rfl

end Registering

theorem processKey_press (mods : Mods) (code : Nat) :
    OnlyTurnsOn (KeyHolds mods code) s (processKey mods code true s) := by
  have hregister : ∀ s : Keyboard cfg, OnlyTurnsOn (KeyHolds mods code) s (s.registerCode code) := fun s =>
    (registerCode_on s code).mono fun item => .inl
  simp only [processKey, if_true]
  refine .trans ?_ (hregister _)
  split_ifs with hmods hstrong
  · exact (addMods_on s mods).mono fun item hitem => .inr (by rwa [if_pos hstrong])
  · exact (addWeakMods_on s mods).mono fun item hitem => .inr (by rwa [if_neg hstrong])
  · exact .rfl

theorem processKey_release_on {p : Item → Prop} (mods : Mods) (code : Nat) :
    OnlyTurnsOn p s (processKey mods code false s) := by
  simp only [processKey, Bool.false_eq_true, if_false]
  split_ifs
  · exact (unregisterCode_on s code).trans (delMods_on _ _)
  · exact (unregisterCode_on s code).trans (delWeakMods_on _ _)
  · exact unregisterCode_on s code

def MayTurnOn (acfg : ActionConfig cfg) (code tapCount : Nat) (pressed : Bool) (item : Item) : Prop :=
  pressed = true ∧ HeldFor acfg code tapCount item ∨ Lasting acfg code tapCount item

theorem processModsTap_on (mods : Mods) (code tapCount : Nat) (pressed : Bool) :
    OnlyTurnsOn
      (fun item => pressed = true ∧ ModsTapHolds acfg mods code tapCount item ∨
        code = modsTapToggle ∧ ¬ tapCount < acfg.tappingToggle ∧ item.IsReal mods)
      s (processModsTap acfg mods code pressed tapCount s) := by
  unfold processModsTap ModsTapHolds
  cases pressed with
  | true =>
    simp only [if_true]
    split_ifs with htoggle hle htap
    · refine (addMods_on s mods).mono fun item hitem => ?_
      by_cases hlt : tapCount < acfg.tappingToggle
      · exact .inl ⟨trivial, hlt, hitem⟩
      · exact .inr ⟨htoggle, hlt, hitem⟩
    · exact .rfl
    · exact (registerCode_on s code).mono fun item hitem => .inl ⟨trivial, hitem⟩
    · exact (addMods_on s mods).mono fun item hitem => .inl ⟨trivial, hitem⟩
  | false =>
    simp only [Bool.false_eq_true, if_false]
    split_ifs
    · exact delMods_on s mods
    · exact .rfl
    · exact unregisterCode_on s code
    · exact delMods_on s mods

theorem processLayerTap_on (layer code tapCount : Nat) (pressed : Bool) :
    OnlyTurnsOn
      (fun item => pressed = true ∧ LayerTapHolds layer code tapCount item ∨
        (code = opTapToggle ∨ code = opOffOn ∨ code = opSetClear) ∧ item = .layer layer)
      s (processLayerTap acfg layer code pressed tapCount s) := by
  have hlasting : ∀ {item : Item}, (code = opTapToggle ∨ code = opOffOn ∨ code = opSetClear) → item = .layer layer →
      pressed = true ∧ LayerTapHolds layer code tapCount item ∨
        (code = opTapToggle ∨ code = opOffOn ∨ code = opSetClear) ∧ item = .layer layer :=
    fun hcode hitem => .inr ⟨hcode, hitem⟩
  have hheld : ∀ {item : Item}, LayerTapHolds layer code tapCount item → pressed = true →
      pressed = true ∧ LayerTapHolds layer code tapCount item ∨
        (code = opTapToggle ∨ code = opOffOn ∨ code = opSetClear) ∧ item = .layer layer :=
    fun hitem hpressed => .inl ⟨hpressed, hitem⟩
  unfold processLayerTap
  split_ifs with htoggle hpressed hlt hle hon hpressed hoff hpressed hclear hpressed hpressed htap htap
  · exact (layerInvert_on s layer).mono fun _ => hlasting (.inl htoggle)
  · exact .rfl
  · exact (layerInvert_on s layer).mono fun _ => hlasting (.inl htoggle)
  · exact .rfl
  · exact (layerOn_on s layer).mono fun item hitem => hheld (by rwa [LayerTapHolds, if_pos hon]) hpressed
  · exact layerOff_on s layer
  · exact layerOff_on s layer
  · exact (layerOn_on s layer).mono fun _ => hlasting (.inr (.inl hoff))
  · exact (layerMove_on s layer).mono fun _ => hlasting (.inr (.inr hclear))
  · exact layerClear_on s
  · refine (registerCode_on s code).mono fun item hitem => hheld ?_ hpressed
    rwa [LayerTapHolds, if_neg hon, if_neg (by simp [htoggle, hoff, hclear]), if_pos htap]
  · refine (layerOn_on s layer).mono fun item hitem => hheld ?_ hpressed
    rwa [LayerTapHolds, if_neg hon, if_neg (by simp [htoggle, hoff, hclear]), if_neg htap]
  · exact unregisterCode_on s code
  · exact layerOff_on s layer

theorem bitOp_on (op : Nat) (state operand : LayerState cfg) {i : Nat} (h : (bitOp op state operand).getLsbD i = true) :
    state.getLsbD i = true ∨ (op ≠ 0 ∧ operand.getLsbD i = true) := by
  unfold bitOp at h
  split at h
  · rw [BitVec.getLsbD_and, Bool.and_eq_true] at h
    exact .inl h.1
  · exact (bit_or h).imp_right fun hbit => ⟨Nat.one_ne_zero, hbit⟩
  · exact (bit_xor h).imp_right fun hbit => ⟨Nat.succ_ne_zero 1, hbit⟩
  · rename_i hop _ _
    exact .inr ⟨hop, h⟩

theorem processLayer_on (code : Nat) (pressed : Bool) :
    OnlyTurnsOn (TurnsOnLayer cfg code) s (processLayer code pressed s) := by
  unfold processLayer
  dsimp only
  by_cases hdefault : code / 256 % 4 = 0
  · rw [if_pos hdefault]
    cases pressed with
    | true => exact .rfl
    | false => exact fun item hon => .inl hon
  · rw [if_neg hdefault]
    by_cases hacts : if pressed = true then code / 256 % 4 % 2 = 1 else code / 256 % 4 / 2 = 1
    · rw [if_pos hacts]
      intro item hon
      cases item with
      | layer i => exact (bitOp_on _ _ _ hon).imp_right fun ⟨hop, hbit⟩ => ⟨hdefault, hop, i, rfl, hbit⟩
      | _ => exact .inl hon
    · rw [if_neg hacts]
      exact .rfl

open ActionCode

/-- Other actions are left alone: what they do has state of its own. -/
def AllOff (acfg : ActionConfig cfg) (item : Item) : Prop :=
  ∀ code pressed tapCount (s : Keyboard cfg), (acfg.otherAction code pressed tapCount s).On item → s.On item

theorem processAction_on (hquiet : AllOff acfg item) (code : Nat) (pressed : Bool) (tapCount : Nat)
    (hon : (processAction acfg code pressed tapCount s).On item) :
    s.On item ∨ MayTurnOn acfg code tapCount pressed item := by
  have hkey : ∀ mods, (processKey mods (keyCode code) pressed s).On item →
      s.On item ∨ pressed = true ∧ KeyHolds mods (keyCode code) item := by
    intro mods hon
    cases pressed with
    | true => exact (processKey_press mods _ item hon).imp_right fun h => ⟨rfl, h⟩
    | false =>
      have hoff : OnlyTurnsOn (fun _ => False) s (processKey mods (keyCode code) false s) :=
        processKey_release_on mods _
      exact (hoff item hon).imp_right False.elim
  simp only [processAction] at hon
  simp only [MayTurnOn, HeldFor, Lasting]
  split_ifs at hon ⊢ with hl hr hlt hrt hlayer hmods hpressed htap
  · exact (hkey _ hon).imp_right .inl
  · exact (hkey _ hon).imp_right .inl
  · refine (processModsTap_on _ _ _ _ item hon).imp_right (Or.imp_right fun h => ?_)
    exact .inl ⟨hlt.1, h⟩
  · refine (processModsTap_on _ _ _ _ item hon).imp_right (Or.imp_right fun h => ?_)
    exact .inr (.inl ⟨hrt.1, h⟩)
  · refine (processLayer_on _ _ item hon).imp_right fun h => ?_
    exact .inr (.inr (.inr (.inl ⟨hlayer, h⟩)))
  · rcases addMods_on _ _ item hon with hold | hreal
    · exact (layerOn_on s _ item hold).imp_right fun h => .inl ⟨hpressed, .inr h⟩
    · exact .inr (.inl ⟨hpressed, .inl hreal⟩)
  · have hdel : OnlyTurnsOn (fun _ => False) s _ := delMods_on s (BitVec.ofNat 8 (layerModsMods code))
    exact (hdel.trans (layerOff_on _ _) item hon).imp_right False.elim
  · refine (processLayerTap_on _ _ _ _ item hon).imp_right (Or.imp_right fun h => ?_)
    exact .inr (.inr (.inr ⟨htap.1, h⟩))
  · exact .inl (hquiet _ _ _ _ hon)

end Action

section Runs

variable {cfg : LayerConfig}

/-- For each key that is down, the keycode its press was resolved to and its tap count. -/
abbrev Down := KeyPos → Option (Nat × Nat)

/-- Keys go down and up in any order. The release of a key carries the tap count of its press, and weak modifiers are
cleared before a press. -/
inductive KeyStep (qcfg : QuantumConfig cfg) : Device cfg × Down → Device cfg × Down → Prop
  | press {s : Device cfg} {down : Down} {key : KeyPos} (tapCount : Nat) (hkey : OnMatrix cfg key)
      (hup : down key = none) :
      KeyStep qcfg (s, down) ((processRecord qcfg s key true tapCount).2,
        Function.update down key (some ((processRecord qcfg s key true tapCount).1, tapCount)))
  | release {s : Device cfg} {down : Down} {key : KeyPos} (tapCount : Nat) (hkey : OnMatrix cfg key)
      (htap : ∀ keycode count, down key = some (keycode, count) → count = tapCount) :
      KeyStep qcfg (s, down) ((processRecord qcfg s key false tapCount).2, Function.update down key none)
  | clearWeakMods {s : Device cfg} {down : Down} :
      KeyStep qcfg (s, down) ({ s with weakMods := 0 }, down)

/-- The item is on only while a key that holds it is down, and each key is released as it was pressed. -/
structure HoldersKnown (qcfg : QuantumConfig cfg) (item : Item) (s : Device cfg) (down : Down) : Prop where
  cached : s.disableActionCache = false
  locked : s.vialUnlockInProgress = false
  tracked : ∀ key keycode count, down key = some (keycode, count) →
    OnMatrix cfg key ∧ cfg.keycode (cachedLayer s key) key = keycode
  held : s.On item → ∃ key keycode count, down key = some (keycode, count) ∧ qcfg.consumes keycode = false ∧
    HeldFor qcfg.toActionConfig (cfg.action keycode) count item

/-- What the handlers and the other actions do leaves the item alone, and no key of the keymap leaves it on. -/
structure Momentary (qcfg : QuantumConfig cfg) (item : Item) : Prop where
  otherAction : AllOff qcfg.toActionConfig item
  consume : ∀ keycode pressed (s : Keyboard cfg), (qcfg.consume keycode pressed s).On item → s.On item
  keymap : ∀ layer key count, ¬ Lasting qcfg.toActionConfig (cfg.action (cfg.keycode layer key)) count item

section Steps

variable {qcfg : QuantumConfig cfg} {item : Item} {s : Device cfg} {down : Down} {key : KeyPos}

theorem OnMatrix.not_magic (h : OnMatrix cfg key) : ¬ (key.row = vialMatrixMagic ∧ key.col = vialMatrixMagic) :=
  fun hmagic => h.1 hmagic.1

theorem keymapKeyToKeycode_matrix (hkey : OnMatrix cfg key) (hlocked : s.vialUnlockInProgress = false) (layer : Nat) :
    keymapKeyToKeycode s layer key = cfg.keycode layer key := by
  rw [keymapKeyToKeycode, hlocked, if_neg Bool.false_ne_true, if_neg hkey.not_magic]

/-- The keyboard behind an event that was resolved to the keycode. -/
def applied (qcfg : QuantumConfig cfg) (keycode : Nat) (pressed : Bool) (tapCount : Nat) (s : Keyboard cfg) :
    Keyboard cfg :=
  if qcfg.consumes keycode = true then qcfg.consume keycode pressed s
  else processAction qcfg.toActionConfig (cfg.action keycode) pressed tapCount s

variable (qcfg) in
theorem processRecord_press (hs : s.disableActionCache = false) (hlocked : s.vialUnlockInProgress = false)
    (hkey : OnMatrix cfg key) (tapCount : Nat) :
    let keycode := cfg.keycode (pressLayer s key) key
    (processRecord qcfg s key true tapCount).1 = keycode ∧
      (processRecord qcfg s key true tapCount).2.toKeyboard =
        applied qcfg keycode true tapCount s.toKeyboard := by
  have hs' : (storePress s key).disableActionCache = false := hs
  have hstored : keymapKeyToKeycode (storePress s key) = keymapKeyToKeycode s := rfl
  simp only [processRecord, resolveKeycode_press hs, resolveAction_press hs', pressLayer_storePress, hstored,
    keymapKeyToKeycode_matrix hkey hlocked, applied]
  split
  · exact ⟨rfl, rfl⟩
  · exact ⟨rfl, rfl⟩

theorem applied_on (hm : Momentary qcfg item) (layer : Nat) (key : KeyPos) {pressed : Bool} {tapCount : Nat}
    {s : Keyboard cfg} (hon : (applied qcfg (cfg.keycode layer key) pressed tapCount s).On item) :
    s.On item ∨ pressed = true ∧ qcfg.consumes (cfg.keycode layer key) = false ∧
      HeldFor qcfg.toActionConfig (cfg.action (cfg.keycode layer key)) tapCount item := by
  unfold applied at hon
  split at hon
  · exact .inl (hm.consume _ _ _ hon)
  · rename_i hpass
    rcases processAction_on hm.otherAction _ _ _ hon with hold | hheld | hlasting
    · exact .inl hold
    · exact .inr ⟨hheld.1, Bool.eq_false_iff.mpr hpass, hheld.2⟩
    · exact absurd hlasting (hm.keymap _ _ _)

theorem processRecord_locked (hs : s.disableActionCache = false) (pressed : Bool) (tapCount : Nat) :
    (processRecord qcfg s key pressed tapCount).2.vialUnlockInProgress = s.vialUnlockInProgress := by
  obtain ⟨keyboard, hk⟩ := processRecord_caches qcfg hs key pressed tapCount
  rw [hk]
  cases pressed with
  | false => rfl
  | true =>
    rw [if_pos rfl]
    split
    · rfl
    · rfl

theorem OnMatrix.not_twin {other : KeyPos} (h : OnMatrix cfg other) (hne : other ≠ key) : ¬ Twin cfg other key := by
  rintro (heq | ⟨henc, -, -⟩)
  · exact hne heq
  · exact henc.1 h.2

variable (qcfg) in
theorem press_cached (hs : s.disableActionCache = false) (hkey : OnMatrix cfg key) (tapCount : Nat) :
    (processRecord qcfg s key true tapCount).2.disableActionCache = false ∧
      cachedLayer (processRecord qcfg s key true tapCount).2 key = pressLayer s key := by
  have hnone : ∀ step ∈ ([] : List (DeviceStep cfg)), ¬ step.Presses key := List.forall_mem_nil _
  exact release_of_press qcfg hs (.inl hkey) tapCount hnone

theorem press_holders (hm : Momentary qcfg item) (h : HoldersKnown qcfg item s down) (hkey : OnMatrix cfg key)
    (hup : down key = none) (tapCount : Nat) :
    HoldersKnown qcfg item (processRecord qcfg s key true tapCount).2
      (Function.update down key (some ((processRecord qcfg s key true tapCount).1, tapCount))) := by
  obtain ⟨hcode, hkeyboard⟩ := processRecord_press qcfg h.cached h.locked hkey tapCount
  obtain ⟨hcached, hlayer⟩ := press_cached qcfg h.cached hkey tapCount
  refine ⟨hcached, (processRecord_locked h.cached _ _).trans h.locked, ?_, ?_⟩
  · intro other keycode count hdown
    by_cases heq : other = key
    · subst heq
      rw [Function.update_self] at hdown
      obtain ⟨rfl, -⟩ := Prod.mk.inj (Option.some.inj hdown)
      exact ⟨hkey, by rw [hlayer, hcode]⟩
    · rw [Function.update_of_ne heq] at hdown
      obtain ⟨hother, hkeycode⟩ := h.tracked other keycode count hdown
      have hother' : ¬ (DeviceStep.record key true tapCount : DeviceStep cfg).Presses other :=
        fun hpress => hother.not_twin heq hpress.2
      have hkeeps := exec_keeps qcfg h.cached hother'
      exact ⟨hother, by rw [← hkeycode]; exact congrArg (cfg.keycode · other) hkeeps.2⟩
  · intro hon
    have hon : (applied qcfg (cfg.keycode (pressLayer s key) key) true tapCount s.toKeyboard).On item := by
      rw [← hkeyboard]
      exact hon
    rcases applied_on hm _ _ hon with hold | ⟨-, hpass, hholds⟩
    · obtain ⟨other, keycode, count, hdown, hheld⟩ := h.held hold
      have hne : other ≠ key := fun heq => by rw [heq, hup] at hdown; cases hdown
      exact ⟨other, keycode, count, by rw [Function.update_of_ne hne]; exact hdown, hheld⟩
    · refine ⟨key, _, tapCount, Function.update_self .., ?_⟩
      rw [hcode]
      exact ⟨hpass, hholds⟩

theorem release_holders (hm : Momentary qcfg item) (h : HoldersKnown qcfg item s down) (hkey : OnMatrix cfg key)
    {tapCount : Nat} (htap : ∀ keycode count, down key = some (keycode, count) → count = tapCount) :
    HoldersKnown qcfg item (processRecord qcfg s key false tapCount).2 (Function.update down key none) := by
  have hrelease : processRecord qcfg s key false tapCount = _ := processRecord_release h.cached tapCount
  simp only [keymapKeyToKeycode_matrix hkey h.locked] at hrelease
  rw [hrelease]
  refine ⟨h.cached, h.locked, ?_, ?_⟩
  · intro other keycode count hdown
    have hne : other ≠ key := fun heq => by rw [heq, Function.update_self] at hdown; cases hdown
    rw [Function.update_of_ne hne] at hdown
    exact h.tracked other keycode count hdown
  · intro hon
    rcases applied_on hm _ _ hon with hold | ⟨hfalse, -⟩
    · obtain ⟨other, keycode, count, hdown, hpass, hholds⟩ := h.held hold
      by_cases heq : other = key
      · -- what this key held, its release has undone
        subst heq
        obtain rfl := htap keycode count hdown
        rw [(h.tracked other keycode count hdown).2] at hon
        have hon : (if qcfg.consumes keycode = true then qcfg.consume keycode false s.toKeyboard
          else processAction qcfg.toActionConfig (cfg.action keycode) false count s.toKeyboard).On item := hon
        rw [if_neg (by rw [hpass]; exact Bool.false_ne_true)] at hon
        exact absurd hon (not_on_of_undone (processAction_release _ _) hholds)
      · exact ⟨other, keycode, count, by rw [Function.update_of_ne heq]; exact hdown, hpass, hholds⟩
    · cases hfalse

theorem clearWeakMods_holders (h : HoldersKnown qcfg item s down) :
    HoldersKnown qcfg item { s with weakMods := 0 } down := by
  refine ⟨h.cached, h.locked, h.tracked, fun hon => h.held ?_⟩
  cases item with
  | weakMod i =>
    have hbit : (0#8).getLsbD i = true := hon
    rw [BitVec.getLsbD_zero] at hbit
    cases hbit
  | _ => exact hon

theorem KeyStep.balanced {c c' : Device cfg × Down} (hm : Momentary qcfg item) (hstep : KeyStep qcfg c c')
    (h : HoldersKnown qcfg item c.1 c.2) : HoldersKnown qcfg item c'.1 c'.2 := by
  cases hstep with
  | press tapCount hkey hup => exact press_holders hm h hkey hup tapCount
  | release tapCount hkey htap => exact release_holders hm h hkey htap
  | clearWeakMods => exact clearWeakMods_holders h

theorem run_holders {c c' : Device cfg × Down} (hm : Momentary qcfg item)
    (hrun : Relation.ReflTransGen (KeyStep qcfg) c c') (h : HoldersKnown qcfg item c.1 c.2) :
    HoldersKnown qcfg item c'.1 c'.2 := by
  induction hrun with
  | refl => exact h
  | tail _ hstep ih => exact hstep.balanced hm ih

end Steps

/-- **Nothing stays on.** For every keymap and every run of presses and releases, overlapping and with the layers moving
under them: each key that is down is released to the keycode of its press, and a key, modifier or layer that is on is
held by a key that is down. -/
theorem on_held (qcfg : QuantumConfig cfg) (item : Item) (hm : Momentary qcfg item) (s : Device cfg)
    (hcached : s.disableActionCache = false) (hlocked : s.vialUnlockInProgress = false) (hoff : ¬ s.On item)
    (s' : Device cfg) (down : Down) (hrun : Relation.ReflTransGen (KeyStep qcfg) (s, fun _ => none) (s', down)) :
    (∀ key keycode count, down key = some (keycode, count) → (processRecord qcfg s' key false count).1 = keycode) ∧
      (s'.On item → ∃ key keycode count, down key = some (keycode, count) ∧ qcfg.consumes keycode = false ∧
        HeldFor qcfg.toActionConfig (cfg.action keycode) count item) := by
  have hstart : HoldersKnown qcfg item s fun _ => none :=
    ⟨hcached, hlocked, fun _ _ _ hdown => (nomatch hdown), fun hon => absurd hon hoff⟩
  have h := run_holders hm hrun hstart
  refine ⟨fun key keycode count hdown => ?_, h.held⟩
  obtain ⟨hkey, hkeycode⟩ := h.tracked key keycode count hdown
  rw [processRecord_release h.cached]
  exact (keymapKeyToKeycode_matrix hkey h.locked _).trans hkeycode

/-- Three keys: `A`, `B` and `C` on the layers, a key that holds layer 1, and one that toggles layer 2. -/
def LayerConfig.three : LayerConfig where
  matrixRows := 1
  matrixCols := 3
  encoderMapEnable := false
  layerStateType := .bit8
  maxLayer := 3
  keycode layer key :=
    if key.col = 0 then 4 + min layer 2
    else if layer ≠ 0 then actionTransparent
    else if key.col = 1 then 0xA1F1 else 0x8A04
  action code := code

theorem three_keycodes (layer : Nat) (key : KeyPos) :
    LayerConfig.three.keycode layer key ∈ [4, 5, 6, actionTransparent, 0xA1F1, 0x8A04] := by
  simp only [LayerConfig.three]
  split
  · have hlayer : min layer 2 = 0 ∨ min layer 2 = 1 ∨ min layer 2 = 2 := by omega
    rcases hlayer with h | h | h <;> simp [h]
  · split
    · simp
    · split <;> simp

theorem three_momentary : Momentary (.plain .three) (.layer 1) where
  otherAction _ _ _ _ := id
  consume _ _ _ := id
  keymap layer key count := by
    have hoff : ∀ code ∈ [4, 5, 6, actionTransparent, 0xA1F1, 0x8A04],
        ¬ Lasting (QuantumConfig.plain .three).toActionConfig code count (.layer 1) := by
      rintro code hcode (⟨-, -, -, hfalse⟩ | ⟨-, -, -, hfalse⟩ | ⟨hkind, -, -, i, heq, hbit⟩ | ⟨hkind, hop, -⟩)
      · exact hfalse
      · exact hfalse
      · cases heq
        simp only [List.mem_cons, List.not_mem_nil, or_false] at hcode
        rcases hcode with rfl | rfl | rfl | rfl | rfl | rfl
        · exact absurd hkind (by decide)
        · exact absurd hkind (by decide)
        · exact absurd hkind (by decide)
        · exact absurd hkind (by decide)
        · exact absurd hkind (by decide)
        · exact absurd hbit (by decide)
      · simp only [List.mem_cons, List.not_mem_nil, or_false] at hcode
        rcases hcode with rfl | rfl | rfl | rfl | rfl | rfl
        · exact absurd hkind (by decide)
        · exact absurd hkind (by decide)
        · exact absurd hkind (by decide)
        · exact absurd hkind (by decide)
        · exact absurd hop (by decide)
        · exact absurd hkind (by decide)
    exact hoff _ (three_keycodes layer key)

/-- Layer 2 is toggled on, and the key that holds layer 1 is released before the one that was pressed behind it: the
layer is off, `C` is still down, and its release is the release of `C`. -/
theorem on_held_three :
    let qcfg := QuantumConfig.plain .three
    let toggled := (processRecord qcfg (processRecord qcfg (.initial .three) ⟨0, 2⟩ true 0).2 ⟨0, 2⟩ false 0).2
    let layered := (processRecord qcfg toggled ⟨0, 1⟩ true 0).2
    let typed := (processRecord qcfg layered ⟨0, 0⟩ true 0).2
    let overlapped := (processRecord qcfg typed ⟨0, 1⟩ false 0).2
    typed.On (.layer 1) ∧ overlapped.On (.key 6) ∧ overlapped.On (.layer 2) ∧ ¬ overlapped.On (.layer 1) ∧
      (processRecord qcfg overlapped ⟨0, 0⟩ false 0).1 = 6 := by
  intro qcfg toggled layered typed overlapped
  have htoggle : OnMatrix .three ⟨0, 2⟩ := by unfold OnMatrix; decide
  have hlayer : OnMatrix .three ⟨0, 1⟩ := by unfold OnMatrix; decide
  have hletter : OnMatrix .three ⟨0, 0⟩ := by unfold OnMatrix; decide
  have hdown : Relation.ReflTransGen (KeyStep qcfg) (.initial .three, fun _ => none) _ := .single (.press 0 htoggle rfl)
  have hup := hdown.tail (KeyStep.release 0 htoggle (by
    intro keycode count hdown
    rw [Function.update_self] at hdown
    exact (Prod.mk.inj (Option.some.inj hdown)).2.symm))
  have hpressed := hup.tail (KeyStep.press 0 hlayer (by simp [Function.update]))
  have htyped := hpressed.tail (KeyStep.press 0 hletter (by simp [Function.update]))
  have hrun := htyped.tail (KeyStep.release 0 hlayer (by
    intro keycode count hdown
    rw [Function.update_of_ne (by decide), Function.update_self] at hdown
    exact (Prod.mk.inj (Option.some.inj hdown)).2.symm))
  have hoff : ¬ (Device.initial .three).On (.layer 1) := by unfold Keyboard.On; decide
  have h := on_held qcfg (.layer 1) three_momentary (.initial .three) rfl rfl hoff _ _ hrun
  refine ⟨by unfold Keyboard.On; decide +kernel, ⟨by decide, by decide +kernel⟩, by unfold Keyboard.On; decide +kernel,
    by unfold Keyboard.On; decide +kernel, ?_⟩
  have hcode : (processRecord qcfg layered ⟨0, 0⟩ true 0).1 = 6 := by decide +kernel
  refine h.1 ⟨0, 0⟩ 6 0 ?_
  rw [Function.update_of_ne (by decide), Function.update_self]
  exact congrArg (fun code => some (code, 0)) hcode

end Runs

end Keys
end VialQmk
