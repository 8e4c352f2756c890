import VialQmk.Keys.OneshotLayer
import VialQmk.Lib.Explained
import VialQmk.Lib.Bits

/-!
# Keys.OneshotBalance

When one-shot layers are switched off again. A layer that is on has been on from the start, is the layer of a
one-shot layer key that is down, or is the one that `oneshot_layer_data` stands for (`Good`); and the layers of the
keys that are down are what `oneshot_layer_data` stands for (`Tracked`).

* `oneshot_layers_restored`: in every run in which one-shot layer keys are not nested, and not switched off in between,
  the layers are those of the start whenever all keys are up and no one-shot layer is pending or locked.
* `pending_layer_stays`: the key that switches one-shot keys off leaves a pending layer on.
-/

namespace VialQmk
namespace Keys

open Lib

namespace Oneshot

variable {κ : Type} {w : Nat} {settings : OneshotSettings} {base : BitVec w} {s : Oneshot κ w}
  {layer : Fin 32}

def layersOf (mask : BitVec w) : Set Nat := {i | mask.getLsbD i = true}

def lit (s : Oneshot κ w) : Set Nat := layersOf s.layerState

def heldLayers (s : Oneshot κ w) : Set Nat := {i | ∃ k layer, s.held k = some (.osl layer) ∧ layer.val = i}

def dataLayer (s : Oneshot κ w) : Set Nat := {i | s.state ≠ 0 ∧ s.layer.val = i}

def reasons (s : Oneshot κ w) : Set Nat := s.heldLayers ∪ s.dataLayer

structure Good (base : BitVec w) (s : Oneshot κ w) : Prop where
  explained : Explained (layersOf base) s.lit s.reasons
  data_off : s.state ≠ 0 → s.layer.val ∉ layersOf base
  held_off : ∀ i ∈ s.heldLayers, i ∉ layersOf base

/-- While one-shot keys are on, the layers of the keys that are down are one, and it is on only as the layer of
`oneshot_layer_data`. -/
structure Tracked (s : Oneshot κ w) : Prop where
  one : ∀ i ∈ s.heldLayers, ∀ j ∈ s.heldLayers, i = j
  data : ∀ i ∈ s.heldLayers, s.state ≠ 0 → i = s.layer.val
  lit : ∀ i ∈ s.heldLayers, i ∈ s.lit → s.state ≠ 0

def PressedHeld (s : Oneshot κ w) : Prop :=
  s.state &&& oneshotPressed ≠ 0 → s.oneshotEnable = true ∧ s.layer.val ∈ s.heldLayers

structure Sound (base : BitVec w) (s : Oneshot κ w) : Prop where
  good : Good base s
  tracked : s.oneshotEnable = true → Tracked s
  pressedHeld : PressedHeld s

def switched : OneshotSwitch → Bool → Bool
  | .on, _ => true
  | .off, _ => false
  | .toggle, active => !active

/-- No one-shot layer key goes down while one for another layer is down, or another layer is locked. One-shot keys are
switched while none is down and no layer is pending. A pending layer is ended by another key only if layer 0 was off at
the start. -/
def KeptPress (base : BitVec w) (s : Oneshot κ w) (tapCount : Nat) : OneshotKey → Prop
  | .osl layer => layer.val ∉ layersOf base ∧
    (s.oneshotEnable = true → (∀ i ∈ s.heldLayers, i = layer.val) ∧
      (s.state &&& oneshotToggled ≠ 0 → s.layer = layer))
  | .ordinary key => s.oneshotEnable = true → s.state = oneshotOtherKeyPressed → key.taken = false →
    clearsOneshotLayer key.action tapCount = true → 0 ∉ layersOf base
  | .switch op =>
    if switched op s.oneshotEnable = s.oneshotEnable then
      s.oneshotEnable = true → s.state = oneshotOtherKeyPressed → 0 ∉ layersOf base
    else s.heldLayers = ∅ ∧ (s.oneshotEnable = true → s.state ≠ oneshotOtherKeyPressed)

section Layers

theorem mem_layersOf_layerOn (layer : Fin 32) (i : Nat) :
    i ∈ (s.layerOn layer).lit ↔ i ∈ s.lit ∨ i = layer.val ∧ layer.val < w :=
  getLsbD_or_one_shiftLeft s.layerState layer.val i

theorem lit_layerOff (layer : Fin 32) : (s.layerOff layer).lit = s.lit \ {layer.val} := by
  ext i
  exact getLsbD_and_not_one_shiftLeft s.layerState layer.val i

theorem lit_subset_layerOn (layer : Fin 32) : s.lit ⊆ (s.layerOn layer).lit :=
  fun i hi => (mem_layersOf_layerOn layer i).mpr (.inl hi)

theorem lit_layerOn_subset (layer : Fin 32) : (s.layerOn layer).lit ⊆ insert layer.val s.lit := by
  intro i hi
  rcases (mem_layersOf_layerOn layer i).mp hi with h | ⟨h, _⟩
  · exact .inr h
  · exact .inl h

end Layers

theorem reasons_of_state_eq_zero (h : s.state = 0) : s.reasons = s.heldLayers := by
  ext i
  simp [reasons, dataLayer, h]

theorem Good.clear (h : Good base s) (hon : s.oneshotEnable = true) (bits : OneshotBits) :
    Good base (s.clearOneshotLayerState bits) := by
  rw [clearOneshotLayerState]
  split
  · rename_i hend
    obtain ⟨hzero, hne, -⟩ := hend
    have hstate : s.state ≠ 0 := by
      intro h0
      rw [h0] at hne
      simp at hne
    have hoff := h.explained.switchOff (h.data_off hstate)
    refine ⟨?_, fun hn => absurd rfl hn, h.held_off⟩
    have hlit : (((({ s with state := s.state &&& ~~~bits } : Oneshot κ w).layerOff s.layer).resetOneshotLayer).lit) =
        s.lit \ {s.layer.val} := lit_layerOff s.layer
    rw [hlit, reasons_of_state_eq_zero rfl]
    refine hoff.mono ?_
    rintro i ⟨hi | ⟨_, rfl⟩, hne⟩
    · exact hi
    · exact absurd rfl hne
  · rename_i hstay
    have hkeep : s.state ≠ 0 → s.state &&& ~~~bits ≠ 0 := by
      intro hstate hzero
      refine hstay ⟨hzero, ?_, hon⟩
      rw [hzero]
      exact hstate
    refine ⟨h.explained.mono ?_, ?_, h.held_off⟩
    · rintro i (hi | ⟨hstate, rfl⟩)
      · exact .inl hi
      · exact .inr ⟨hkeep hstate, rfl⟩
    · intro hn
      refine h.data_off ?_
      intro h0
      refine hn ?_
      simp [h0]

theorem explained_set (h : Explained (layersOf base) s.lit (insert layer.val s.reasons))
    (hon : s.oneshotEnable = true) (hforget : s.state ≠ 0 → s.layer = layer)
    {bits : OneshotBits} (hbits : bits ≠ 0) (now : UInt16) :
    Explained (layersOf base) (s.setOneshotLayer layer bits now).lit (s.setOneshotLayer layer bits now).reasons := by
  have hlit : (s.setOneshotLayer layer bits now).lit = (s.layerOn layer).lit := by
    rw [setOneshotLayer, if_pos hon]
    rfl
  have hreasons : (s.setOneshotLayer layer bits now).reasons = insert layer.val s.heldLayers := by
    rw [setOneshotLayer, if_pos hon]
    ext i
    simp only [reasons, dataLayer, Set.mem_union, Set.mem_ofPred_eq, Set.mem_insert_iff]
    constructor
    · rintro (hi | ⟨_, rfl⟩)
      · exact .inr hi
      · exact .inl rfl
    · rintro (rfl | hi)
      · exact .inr ⟨hbits, rfl⟩
      · exact .inl hi
  rw [hlit, hreasons]
  have hlost : Explained (layersOf base) s.lit (insert layer.val s.heldLayers) := by
    by_cases hstate : s.state = 0
    · rwa [reasons_of_state_eq_zero hstate] at h
    · refine @Explained.lose _ _ _ _ _ s.layer.val h ?_ ?_
      · rintro i (rfl | hi | ⟨_, rfl⟩)
        · exact .inr (.inl rfl)
        · exact .inr (.inr hi)
        · exact .inl rfl
      · intro _
        exact .inr (.inl (congrArg Fin.val (hforget hstate)))
  exact hlost.switchOn (lit_subset_layerOn layer) (lit_layerOn_subset layer) (.inl rfl)

theorem reset_setOneshotLayer (layer : Fin 32) (bits : OneshotBits) (now : UInt16) (hon : s.oneshotEnable = true) :
    s.resetOneshotLayer.setOneshotLayer layer bits now = s.setOneshotLayer layer bits now := by
  simp [setOneshotLayer, resetOneshotLayer, layerOn, hon]

theorem Good.set (h : Good base s) (hon : s.oneshotEnable = true) (hlayer : layer.val ∉ layersOf base)
    (hforget : s.state ≠ 0 → s.layer = layer) {bits : OneshotBits} (hbits : bits ≠ 0) (now : UInt16) :
    Good base (s.setOneshotLayer layer bits now) := by
  refine ⟨explained_set (h.explained.mono (Set.subset_insert _ _)) hon hforget hbits now, ?_, ?_⟩
  · intro _
    rw [setOneshotLayer, if_pos hon]
    exact hlayer
  · rw [setOneshotLayer, if_pos hon]
    exact h.held_off

theorem Good.unlock (h : Good base s) (hlayer : layer.val ∉ layersOf base)
    (hforget : s.state ≠ 0 → s.layer = layer) :
    Good base (s.resetOneshotLayer.layerOff layer) := by
  have hlit : (s.resetOneshotLayer.layerOff layer).lit = s.lit \ {layer.val} := lit_layerOff layer
  refine ⟨?_, fun hn => absurd rfl hn, h.held_off⟩
  rw [hlit, reasons_of_state_eq_zero (s := s.resetOneshotLayer.layerOff layer) rfl]
  show Explained _ _ s.heldLayers
  by_cases hstate : s.state = 0
  · have hacc := h.explained.switchOff hlayer
    rw [reasons_of_state_eq_zero hstate] at hacc
    exact hacc.mono Set.sdiff_subset
  · refine @Explained.lose _ _ _ _ _ s.layer.val (h.explained.switchOff hlayer) ?_ ?_
    · rintro i ⟨hi | ⟨_, rfl⟩, _⟩
      · exact .inr hi
      · exact .inl rfl
    · rintro ⟨-, hne⟩
      exact absurd (congrArg Fin.val (hforget hstate)) hne

@[simp] theorem clearOneshotLayerState_oneshotEnable (bits : OneshotBits) :
    (s.clearOneshotLayerState bits).oneshotEnable = s.oneshotEnable := by
  rw [clearOneshotLayerState]
  split <;> rfl

@[simp] theorem clearOneshotLayerState_held (bits : OneshotBits) : (s.clearOneshotLayerState bits).held = s.held := by
  rw [clearOneshotLayerState]
  split <;> rfl

theorem clearOneshotLayerState_of_ne (bits : OneshotBits) (hne : (s.clearOneshotLayerState bits).state ≠ 0) :
    s.clearOneshotLayerState bits = { s with state := s.state &&& ~~~bits } := by
  rw [clearOneshotLayerState] at hne ⊢
  split at hne
  · exact absurd rfl hne
  · rename_i hstay
    rw [if_neg hstay]

theorem clearsOneshotLayer_osl (layer : Fin 32) (tapCount : Nat) :
    clearsOneshotLayer (OneshotKey.osl layer).action tapCount = true := by
  have hlayer := layer.isLt
  refine decide_eq_true (.inr ?_)
  simp only [OneshotKey.action, ActionCode.keyCode, ActionCode.kindId, actLayerTap, opOneshot, actLmodsTap,
    actRmodsTap, IsModifierKeycode]
  rintro (hmod | ⟨hkind, _⟩)
  · omega
  · omega

theorem Good.endOneshotLayer (h : Good base s) (action tapCount : Nat) :
    Good base (s.endOneshotLayer action tapCount).2 := by
  rw [Oneshot.endOneshotLayer]
  split
  · rename_i hends
    exact h.clear hends.2.2 _
  · exact h

theorem endOneshotLayer_osl (hon : s.oneshotEnable = true) (layer : Fin 32) (tapCount : Nat)
    (hne : (s.endOneshotLayer (OneshotKey.osl layer).action tapCount).2.state ≠ 0) :
    (s.endOneshotLayer (OneshotKey.osl layer).action tapCount).2 =
      { s with state := s.state &&& ~~~oneshotOtherKeyPressed } := by
  rw [Oneshot.endOneshotLayer] at hne ⊢
  by_cases hactive : s.state = 0
  · have hinactive : s.isOneshotLayerActive = false := by simp [isOneshotLayerActive, hactive]
    rw [hinactive, if_neg (by simp)] at hne
    exact absurd hactive hne
  · have hends : s.isOneshotLayerActive = true ∧ clearsOneshotLayer (OneshotKey.osl layer).action tapCount = true ∧
        s.oneshotEnable = true := ⟨decide_eq_true hactive, clearsOneshotLayer_osl layer tapCount, hon⟩
    rw [if_pos hends] at hne ⊢
    exact clearOneshotLayerState_of_ne _ hne

variable (action tapCount : Nat)

@[simp] theorem endOneshotLayer_oneshotEnable :
    (s.endOneshotLayer action tapCount).2.oneshotEnable = s.oneshotEnable := by
  rw [Oneshot.endOneshotLayer]
  split
  · exact clearOneshotLayerState_oneshotEnable _
  · rfl

@[simp] theorem endOneshotLayer_held : (s.endOneshotLayer action tapCount).2.held = s.held := by
  rw [Oneshot.endOneshotLayer]
  split
  · exact clearOneshotLayerState_held _
  · rfl

theorem Good.layerOn (h : Good base s) (hheld : layer.val ∈ s.heldLayers) : Good base (s.layerOn layer) :=
  ⟨h.explained.switchOn (lit_subset_layerOn layer) (lit_layerOn_subset layer) (.inl hheld), h.data_off, h.held_off⟩

theorem Good.press_osl (h : Good base s) (hlayer : layer.val ∉ layersOf base) (hheld : layer.val ∈ s.heldLayers)
    (tapCount : Nat) (now : UInt16)
    (hforget : s.oneshotEnable = true → s.state ≠ 0 → s.layer = layer) :
    Good base (s.opOneshotLayer settings layer true tapCount now) := by
  cases hon : s.oneshotEnable with
  | false =>
    simp only [opOneshotLayer, hon, Bool.false_eq_true, not_false_eq_true, if_true]
    exact h.layerOn hheld
  | true =>
    simp only [opOneshotLayer, hon, not_true_eq_false, if_false, if_true]
    split
    · split
      · exact h.unlock hlayer (hforget hon)
      · split
        · exact h.set hon hlayer (hforget hon) (by decide) now
        · exact h
    · exact h.set hon hlayer (hforget hon) (by decide) now

theorem release_osl_good (hexplained : Explained (layersOf base) s.lit (insert layer.val s.reasons))
    (hdata : s.state ≠ 0 → s.layer.val ∉ layersOf base) (hheld : ∀ i ∈ s.heldLayers, i ∉ layersOf base)
    (hlayer : layer.val ∉ layersOf base) (tapCount : Nat) (now : UInt16)
    (hlast : s.oneshotEnable = true → s.state ≠ 0 → s.layer = layer)
    (hlit : s.oneshotEnable = true → layer.val ∈ s.lit → s.state ≠ 0) :
    Good base (s.opOneshotLayer settings layer false tapCount now) := by
  cases hon : s.oneshotEnable with
  | false =>
    simp only [opOneshotLayer, hon, Bool.false_eq_true, not_false_eq_true, if_true, if_false]
    refine ⟨?_, hdata, hheld⟩
    rw [lit_layerOff]
    refine (hexplained.switchOff hlayer).mono ?_
    rintro i ⟨rfl | hi, hne⟩
    · exact absurd rfl hne
    · exact hi
  | true =>
    by_cases hlocks : 1 < settings.tapToggle ∧ settings.tapToggle ≤ tapCount
    · simp only [opOneshotLayer, hon, hlocks.1, hlocks.2, not_true_eq_false, Bool.false_eq_true, if_false, if_true]
      rw [reset_setOneshotLayer _ _ _ hon]
      refine ⟨explained_set hexplained hon (hlast hon) (by decide) now, ?_, ?_⟩
      · intro _
        rw [setOneshotLayer, if_pos hon]
        exact hlayer
      · rw [setOneshotLayer, if_pos hon]
        exact hheld
    · have hgood : Good base s := by
        refine ⟨hexplained.lose subset_rfl fun hmem => .inr (.inr ?_), hdata, hheld⟩
        have hstate := hlit hon hmem
        exact ⟨hstate, congrArg Fin.val (hlast hon hstate)⟩
      have hcleared := hgood.clear hon oneshotPressed
      simp only [opOneshotLayer, hon, not_true_eq_false, Bool.false_eq_true, if_false]
      split
      · rename_i hmany
        rw [if_neg fun hle => hlocks ⟨hmany, hle⟩]
        exact hcleared
      · split
        · exact hcleared.clear ((clearOneshotLayerState_oneshotEnable _).trans hon) _
        · exact hcleared

theorem Good.layerOnOff (h : Good base s) (hlayer : layer.val ∉ layersOf base) (hstate : s.state = 0) :
    Good base ((s.layerOn layer).layerOff layer) := by
  refine ⟨?_, fun hn => absurd hstate hn, h.held_off⟩
  have hlit : (s.layerOn layer).lit \ {layer.val} = s.lit \ {layer.val} := by
    ext i
    simp only [Set.mem_sdiff, Set.mem_singleton_iff]
    rw [mem_layersOf_layerOn]
    constructor
    · rintro ⟨hon | ⟨heq, _⟩, hne⟩
      · exact ⟨hon, hne⟩
      · exact absurd heq hne
    · rintro ⟨hon, hne⟩
      exact ⟨.inl hon, hne⟩
  rw [lit_layerOff, hlit, reasons_of_state_eq_zero (s := (s.layerOn layer).layerOff layer) hstate]
  have hoff := h.explained.switchOff hlayer
  rw [reasons_of_state_eq_zero hstate] at hoff
  exact hoff.mono Set.sdiff_subset

theorem eq_otherKeyPressed : ∀ state : OneshotBits, state ≠ 0 → state &&& ~~~oneshotOtherKeyPressed = 0 →
    state = oneshotOtherKeyPressed := by decide

theorem endOneshotLayer_fst {action tapCount : Nat} (h : (s.endOneshotLayer action tapCount).1 = true) :
    s.oneshotEnable = true ∧ s.state = oneshotOtherKeyPressed ∧ clearsOneshotLayer action tapCount = true ∧
      (s.endOneshotLayer action tapCount).2.layer = 0 ∧ (s.endOneshotLayer action tapCount).2.state = 0 := by
  rw [Oneshot.endOneshotLayer] at h ⊢
  split at h
  · rename_i hends
    obtain ⟨hactive, hclears, hon⟩ := hends
    have hne : s.state ≠ 0 := of_decide_eq_true hactive
    rw [if_pos ⟨hactive, hclears, hon⟩]
    have hended : (s.clearOneshotLayerState oneshotOtherKeyPressed).state = 0 := by
      simpa [isOneshotLayerActive] using h
    have hzero : s.state &&& ~~~oneshotOtherKeyPressed = 0 := by
      rw [clearOneshotLayerState] at hended
      split at hended
      · rename_i hend
        exact hend.1
      · exact hended
    refine ⟨hon, eq_otherKeyPressed _ hne hzero, hclears, ?_, hended⟩
    rw [clearOneshotLayerState, if_pos ⟨hzero, fun heq => hne (heq.trans hzero), hon⟩]
    rfl
  · exact nomatch h

abbrev endedBy (s : Oneshot κ w) (action tapCount : Nat) : Oneshot κ w :=
  if (s.endOneshotLayer action tapCount).1 ∧ (s.endOneshotLayer action tapCount).2.state &&& oneshotPressed = 0 then
    ((s.endOneshotLayer action tapCount).2.layerOn (s.endOneshotLayer action tapCount).2.layer).layerOff
      (s.endOneshotLayer action tapCount).2.layer
  else (s.endOneshotLayer action tapCount).2

theorem Good.press_other (h : Good base s) {action tapCount : Nat}
    (hzero : s.oneshotEnable = true → s.state = oneshotOtherKeyPressed → clearsOneshotLayer action tapCount = true →
      0 ∉ layersOf base) : Good base (endedBy s action tapCount) := by
  rw [endedBy]
  have hgood := h.endOneshotLayer action tapCount
  split
  · rename_i hrelease
    obtain ⟨hon, hstate, hclears, hlayer, hended⟩ := endOneshotLayer_fst hrelease.1
    refine hgood.layerOnOff ?_ hended
    rw [hlayer]
    exact hzero hon hstate hclears
  · exact hgood

theorem Good.oneshotSet (h : Good base s) {active : Bool}
    (hoff : s.oneshotEnable = true → active = false → s.state ≠ oneshotOtherKeyPressed) :
    Good base (s.oneshotSet active) := by
  rw [Oneshot.oneshotSet]
  split
  · rename_i hchange
    cases hactive : active with
    | true =>
      have hswitched : Good base { s with oneshotEnable := true } := ⟨h.explained, h.data_off, h.held_off⟩
      exact hswitched.clear rfl _
    | false =>
      have hon : s.oneshotEnable = true := by simpa [hactive] using hchange
      rw [clearOneshotLayerState, if_neg (by simp)]
      refine ⟨?_, ?_, h.held_off⟩
      · refine h.explained.mono ?_
        rintro i (hi | ⟨hstate, rfl⟩)
        · exact .inl hi
        · exact .inr ⟨fun hzero => hoff hon hactive (eq_otherKeyPressed _ hstate hzero), rfl⟩
      · intro hn
        refine h.data_off ?_
        intro h0
        refine hn ?_
        simp [h0]
  · exact h

theorem oneshotSet_oneshotEnable (active : Bool) : (s.oneshotSet active).oneshotEnable = active := by
  rw [Oneshot.oneshotSet]
  split
  · exact clearOneshotLayerState_oneshotEnable _
  · rename_i hsame
    simpa using hsame

theorem oneshotSet_state {active : Bool} (hne : s.oneshotEnable ≠ active) :
    (s.oneshotSet active).state ≠ oneshotOtherKeyPressed := by
  rw [Oneshot.oneshotSet, if_pos hne, clearOneshotLayerState]
  split
  · show (0 : OneshotBits) ≠ oneshotOtherKeyPressed
    decide
  · show s.state &&& ~~~oneshotOtherKeyPressed ≠ _
    generalize s.state = state
    revert state
    decide

/-! ## The keys that are down -/

theorem heldLayers_congr {s' : Oneshot κ w} (h : s'.held = s.held) : s'.heldLayers = s.heldLayers := by
  rw [heldLayers, heldLayers, h]

theorem Tracked.clear (h : Tracked s) (hon : s.oneshotEnable = true) (bits : OneshotBits) :
    Tracked (s.clearOneshotLayerState bits) := by
  have hheld := heldLayers_congr (clearOneshotLayerState_held (s := s) bits)
  rw [clearOneshotLayerState] at hheld ⊢
  split
  · rename_i hend
    rw [if_pos hend] at hheld
    refine ⟨hheld ▸ h.one, fun _ _ hne => absurd rfl hne, fun i hi hmem => ?_⟩
    have hmem : i ∈ (s.layerOff s.layer).lit := hmem
    rw [lit_layerOff] at hmem
    rw [hheld] at hi
    exact absurd (h.data i hi (h.lit i hi hmem.1)) hmem.2
  · rename_i hstay
    have hkeep : s.state ≠ 0 → s.state &&& ~~~bits ≠ 0 := by
      intro hstate hzero
      refine hstay ⟨hzero, ?_, hon⟩
      rw [hzero]
      exact hstate
    refine ⟨h.one, fun i hi hne => h.data i hi ?_, fun i hi hmem => hkeep (h.lit i hi hmem)⟩
    intro hzero
    refine hne ?_
    simp [hzero]

theorem PressedHeld.of_state (state : OneshotBits) (h : s.state = state) (hnone : state &&& oneshotPressed = 0) :
    PressedHeld s := fun hne => absurd (h ▸ hnone) hne

theorem PressedHeld.clear (h : s.state &&& ~~~bits &&& oneshotPressed ≠ 0 →
    s.oneshotEnable = true ∧ s.layer.val ∈ s.heldLayers) : PressedHeld (s.clearOneshotLayerState bits) := by
  rw [clearOneshotLayerState]
  split
  · exact .of_state 0 rfl (by decide)
  · exact h

theorem and_not_and_ne_zero : ∀ {state bits other : OneshotBits}, state &&& ~~~bits &&& other ≠ 0 →
    state &&& other ≠ 0 := by decide

theorem Sound.of_tracked (hgood : Good base s) (h : (s.oneshotEnable = true → Tracked s) ∧ PressedHeld s) :
    Sound base s := ⟨hgood, h.1, h.2⟩

theorem Sound.clear (h : Sound base s) (hon : s.oneshotEnable = true) (bits : OneshotBits) :
    Sound base (s.clearOneshotLayerState bits) :=
  ⟨h.good.clear hon bits, fun _ => (h.tracked hon).clear hon bits,
    .clear fun hne => h.pressedHeld (and_not_and_ne_zero hne)⟩

theorem Sound.endOneshotLayer (h : Sound base s) (action tapCount : Nat) :
    Sound base (s.endOneshotLayer action tapCount).2 := by
  rw [Oneshot.endOneshotLayer]
  split
  · rename_i hends
    exact h.clear hends.2.2 _
  · exact h

theorem tracked_endedBy (h : Sound base s) (action tapCount : Nat) :
    (s.oneshotEnable = true → Tracked (endedBy s action tapCount)) ∧ PressedHeld (endedBy s action tapCount) := by
  have hsound := h.endOneshotLayer action tapCount
  rw [endedBy]
  split
  · rename_i hrelease
    obtain ⟨hon, -, -, -, hended⟩ := endOneshotLayer_fst hrelease.1
    have htracked := hsound.tracked ((endOneshotLayer_oneshotEnable action tapCount).trans hon)
    refine ⟨fun _ => ⟨htracked.one, htracked.data, fun i hi hmem => ?_⟩, hsound.pressedHeld⟩
    have hmem : i ∈ (((s.endOneshotLayer action tapCount).2.layerOn _).layerOff _).lit := hmem
    rw [lit_layerOff] at hmem
    rcases (mem_layersOf_layerOn _ i).mp hmem.1 with hmem' | ⟨heq, -⟩
    · exact htracked.lit i hi hmem'
    · exact absurd heq hmem.2
  · exact ⟨fun hon => hsound.tracked ((endOneshotLayer_oneshotEnable action tapCount).trans hon), hsound.pressedHeld⟩

theorem endedBy_oneshotEnable : (endedBy s action tapCount).oneshotEnable = s.oneshotEnable := by
  rw [endedBy]
  split <;> exact endOneshotLayer_oneshotEnable action tapCount

theorem Sound.press_other (h : Sound base s) {action tapCount : Nat}
    (hzero : s.oneshotEnable = true → s.state = oneshotOtherKeyPressed → clearsOneshotLayer action tapCount = true →
      0 ∉ layersOf base) : Sound base (endedBy s action tapCount) := by
  obtain ⟨htracked, hpressed⟩ := tracked_endedBy h action tapCount
  exact ⟨h.good.press_other hzero, fun hon => htracked (endedBy_oneshotEnable action tapCount ▸ hon), hpressed⟩

theorem Sound.oneshotSet (h : Sound base s) {active : Bool}
    (hoff : s.oneshotEnable = true → active = false → s.state ≠ oneshotOtherKeyPressed)
    (hup : s.oneshotEnable ≠ active → s.heldLayers = ∅) : Sound base (s.oneshotSet active) := by
  have hgood := h.good.oneshotSet hoff
  by_cases hchange : s.oneshotEnable = active
  · rw [Oneshot.oneshotSet, if_neg (not_not.mpr hchange)]
    exact h
  · have hnone : (s.oneshotSet active).heldLayers = ∅ := by
      rw [Oneshot.oneshotSet, if_pos hchange]
      exact (heldLayers_congr (clearOneshotLayerState_held _)).trans (hup hchange)
    refine ⟨hgood, fun _ => ?_, ?_⟩
    · refine ⟨fun i hi => ?_, fun i hi => ?_, fun i hi => ?_⟩ <;> rw [hnone] at hi <;> cases hi
    · rw [Oneshot.oneshotSet, if_pos hchange]
      refine .clear fun hne => ?_
      obtain ⟨-, hheld⟩ := h.pressedHeld (and_not_and_ne_zero hne)
      rw [hup hchange] at hheld
      cases hheld

/-- The press of a key that has switched one-shot keys on or off goes on as that of `ACTION_NO`. -/
theorem Sound.press_switch (h : Sound base s) {active : Bool} {tapCount : Nat}
    (hkept : if active = s.oneshotEnable then s.oneshotEnable = true → s.state = oneshotOtherKeyPressed → 0 ∉ layersOf base
      else s.heldLayers = ∅ ∧ (s.oneshotEnable = true → s.state ≠ oneshotOtherKeyPressed)) :
    Sound base (endedBy (s.oneshotSet active) 0 tapCount) := by
  have hset : Sound base (s.oneshotSet active) := by
    refine h.oneshotSet ?_ fun hne => ?_
    · rintro hon rfl
      rw [if_neg (by simp [hon])] at hkept
      exact hkept.2 hon
    · rw [if_neg (Ne.symm hne)] at hkept
      exact hkept.1
  refine hset.press_other ?_
  intro hon hpending _
  rw [oneshotSet_oneshotEnable] at hon
  by_cases hsame : s.oneshotEnable = active
  · rw [Oneshot.oneshotSet, if_neg (not_not.mpr hsame)] at hpending
    rw [if_pos hsame.symm] at hkept
    exact hkept (hsame.trans hon) hpending
  · exact absurd hpending (oneshotSet_state hsame)

section Records

variable [DecidableEq κ] {k : κ} {key : OneshotKey}

def pressed (s : Oneshot κ w) (k : κ) (key : OneshotKey) : Oneshot κ w :=
  { s with held := Function.update s.held k (some key) }

def released (s : Oneshot κ w) (k : κ) : Oneshot κ w := { s with held := Function.update s.held k none }

theorem heldLayers_subset_pressed (h : s.held k = none) : s.heldLayers ⊆ (s.pressed k key).heldLayers := by
  rintro i ⟨k', layer, hheld, rfl⟩
  have hne : k' ≠ k := by
    rintro rfl
    rw [h] at hheld
    exact nomatch hheld
  exact ⟨k', layer, (Function.update_of_ne hne _ _).trans hheld, rfl⟩

theorem mem_heldLayers_pressed {i : Nat} (hi : i ∈ (s.pressed k key).heldLayers) :
    i ∈ s.heldLayers ∨ ∃ layer, key = .osl layer ∧ layer.val = i := by
  obtain ⟨k', layer, hheld, rfl⟩ := hi
  by_cases hk : k' = k
  · subst hk
    have heq : some key = some (.osl layer) := (Function.update_self k' _ _).symm.trans hheld
    exact .inr ⟨layer, Option.some.inj heq, rfl⟩
  · exact .inl ⟨k', layer, (Function.update_of_ne hk _ _).symm.trans hheld, rfl⟩

theorem heldLayers_released_subset : (s.released k).heldLayers ⊆ s.heldLayers := by
  rintro i ⟨k', layer, hheld, rfl⟩
  by_cases hk : k' = k
  · subst hk
    have heq : none = some (OneshotKey.osl layer) := (Function.update_self k' _ _).symm.trans hheld
    exact nomatch heq
  · exact ⟨k', layer, (Function.update_of_ne hk _ _).symm.trans hheld, rfl⟩

theorem mem_heldLayers_of_released (hkey : s.held k = some key) {i : Nat} (hi : i ∈ s.heldLayers) :
    i ∈ (s.released k).heldLayers ∨ ∃ layer, key = .osl layer ∧ layer.val = i := by
  obtain ⟨k', layer, hheld, rfl⟩ := hi
  by_cases hk : k' = k
  · subst hk
    exact .inr ⟨layer, Option.some.inj (hkey.symm.trans hheld), rfl⟩
  · exact .inl ⟨k', layer, (Function.update_of_ne hk _ _).trans hheld, rfl⟩

theorem Good.pressed (h : Good base s) (hup : s.held k = none)
    (hlayer : ∀ layer, key = .osl layer → layer.val ∉ layersOf base) : Good base (s.pressed k key) := by
  refine ⟨h.explained.mono ?_, h.data_off, ?_⟩
  · exact Set.union_subset_union_left _ (heldLayers_subset_pressed hup)
  · intro i hi
    rcases mem_heldLayers_pressed hi with hheld | ⟨layer, hkey, rfl⟩
    · exact h.held_off i hheld
    · exact hlayer layer hkey

theorem Sound.pressed_other (h : Sound base s) (hup : s.held k = none) (hkey : ∀ layer, key ≠ .osl layer) :
    Sound base (s.pressed k key) ∧ (s.pressed k key).heldLayers = s.heldLayers := by
  have hsame : (s.pressed k key).heldLayers = s.heldLayers := by
    refine Set.Subset.antisymm (fun i hi => ?_) (heldLayers_subset_pressed hup)
    exact (mem_heldLayers_pressed hi).resolve_right fun ⟨layer, heq, _⟩ => hkey layer heq
  refine ⟨⟨h.good.pressed hup fun layer heq => absurd heq (hkey layer), fun hon => ?_, fun hne => ?_⟩, hsame⟩
  · have htracked := h.tracked hon
    exact ⟨hsame ▸ htracked.one, hsame ▸ htracked.data, hsame ▸ htracked.lit⟩
  · exact hsame ▸ h.pressedHeld hne

theorem Sound.released_other (h : Sound base s) (hdown : s.held k = some key) (hkey : ∀ layer, key ≠ .osl layer) :
    Sound base (s.released k) := by
  have hsame : (s.released k).heldLayers = s.heldLayers := by
    refine Set.Subset.antisymm heldLayers_released_subset fun i hi => ?_
    exact (mem_heldLayers_of_released hdown hi).resolve_right fun ⟨layer, heq, _⟩ => hkey layer heq
  refine ⟨⟨?_, h.good.data_off, hsame ▸ h.good.held_off⟩, fun hon => ?_, fun hne => hsame ▸ h.pressedHeld hne⟩
  · refine h.good.explained.mono ?_
    rintro i (hi | hi)
    · exact .inl (hsame ▸ hi)
    · exact .inr hi
  · have htracked := h.tracked hon
    exact ⟨hsame ▸ htracked.one, hsame ▸ htracked.data, hsame ▸ htracked.lit⟩

theorem clearOneshotLayerState_pressed (bits : OneshotBits) :
    (s.pressed k key).clearOneshotLayerState bits = (s.clearOneshotLayerState bits).pressed k key := by
  rw [clearOneshotLayerState, clearOneshotLayerState]
  by_cases hend : s.state &&& ~~~bits = 0 ∧ s.state ≠ s.state &&& ~~~bits ∧ s.oneshotEnable
  · rw [if_pos hend]
    exact if_pos hend
  · rw [if_neg hend]
    exact if_neg hend

theorem endOneshotLayer_pressed (action tapCount : Nat) :
    ((s.pressed k key).endOneshotLayer action tapCount).2 = (s.endOneshotLayer action tapCount).2.pressed k key := by
  have hsnd : ∀ s : Oneshot κ w, (s.endOneshotLayer action tapCount).2 =
      if s.isOneshotLayerActive ∧ clearsOneshotLayer action tapCount ∧ s.oneshotEnable then
        s.clearOneshotLayerState oneshotOtherKeyPressed
      else s := by
    intro s
    rw [Oneshot.endOneshotLayer]
    split <;> rfl
  rw [hsnd, hsnd, clearOneshotLayerState_pressed]
  exact (apply_ite (fun s : Oneshot κ w => s.pressed k key) _ _ _).symm

theorem Sound.press_osl (h : Sound base s) (hup : s.held k = none) (hlayer : layer.val ∉ layersOf base)
    (hone : s.oneshotEnable = true → ∀ i ∈ s.heldLayers, i = layer.val)
    (hlast : s.oneshotEnable = true → s.state ≠ 0 → s.layer = layer) (tapCount : Nat) (now : UInt16) :
    Sound base ((s.pressed k (.osl layer)).opOneshotLayer settings layer true tapCount now) := by
  have hself : layer.val ∈ (s.pressed k (.osl layer)).heldLayers := ⟨k, layer, Function.update_self k _ _, rfl⟩
  have hgood : Good base (s.pressed k (.osl layer)) := h.good.pressed hup fun _ heq => by
    cases heq
    exact hlayer
  have hall : s.oneshotEnable = true → ∀ i ∈ (s.pressed k (.osl layer)).heldLayers, i = layer.val := by
    intro hon i hi
    rcases mem_heldLayers_pressed hi with hheld | ⟨layer', heq, rfl⟩
    · exact hone hon i hheld
    · cases heq
      rfl
  refine .of_tracked (hgood.press_osl hlayer hself tapCount now hlast) ?_
  cases hon : s.oneshotEnable with
  | false =>
    have hon' : (s.pressed k (.osl layer)).oneshotEnable = false := hon
    simp only [opOneshotLayer, hon', Bool.false_eq_true, not_false_eq_true, if_true]
    refine ⟨fun h => absurd (hon'.symm.trans h) (by decide), fun hne => ?_⟩
    exact absurd (hon.symm.trans (h.pressedHeld hne).1) (by decide)
  | true =>
    have hon' : (s.pressed k (.osl layer)).oneshotEnable = true := hon
    have hset : ∀ {bits}, bits ≠ 0 → Tracked ((s.pressed k (.osl layer)).setOneshotLayer layer bits now) ∧
        PressedHeld ((s.pressed k (.osl layer)).setOneshotLayer layer bits now) := by
      intro bits hbits
      rw [setOneshotLayer, if_pos hon']
      exact ⟨⟨fun i hi j hj => (hall hon i hi).trans (hall hon j hj).symm, fun i hi _ => hall hon i hi,
        fun _ _ _ => hbits⟩, fun _ => ⟨hon, hself⟩⟩
    simp only [opOneshotLayer, hon', not_true_eq_false, if_false, if_true]
    split
    · split
      · refine ⟨fun _ => ⟨fun i hi j hj => (hall hon i hi).trans (hall hon j hj).symm, fun _ _ hne => absurd rfl hne,
          fun i hi hmem => ?_⟩, .of_state 0 rfl (by decide)⟩
        have hmem : i ∈ ((s.pressed k (.osl layer)).layerOff layer).lit := hmem
        rw [lit_layerOff] at hmem
        exact absurd (hall hon i hi) hmem.2
      · split
        · exact ⟨fun _ => (hset (by decide)).1, (hset (by decide)).2⟩
        · -- The layer is left as it is, and `oneshot_layer_data` too.
          refine ⟨fun _ => ⟨fun i hi j hj => (hall hon i hi).trans (hall hon j hj).symm, fun i hi hne => ?_,
            fun i hi hmem => ?_⟩, fun hne => ?_⟩
          · exact (hall hon i hi).trans (congrArg Fin.val (hlast hon hne)).symm
          · rw [hall hon i hi] at hmem
            rcases h.good.explained.caused _ hmem with hbase | hheld | hdata
            · exact absurd hbase hlayer
            · exact (h.tracked hon).lit _ hheld hmem
            · exact hdata.1
          · exact ⟨hon, heldLayers_subset_pressed hup (h.pressedHeld hne).2⟩
    · exact ⟨fun _ => (hset (by decide)).1, (hset (by decide)).2⟩

/-- The release of a one-shot layer key: its layer is off, or the one in `oneshot_layer_data`. -/
theorem Sound.release_osl (h : Sound base s) (hdown : s.held k = some (.osl layer)) (tapCount : Nat) (now : UInt16) :
    Sound base ((s.released k).opOneshotLayer settings layer false tapCount now) := by
  have hself : layer.val ∈ s.heldLayers := ⟨k, layer, hdown, rfl⟩
  have hlayer := h.good.held_off _ hself
  have hlast : s.oneshotEnable = true → s.state ≠ 0 → s.layer = layer := fun hon hne =>
    Fin.ext ((h.tracked hon).data _ hself hne).symm
  have hexplained : Explained (layersOf base) (s.released k).lit (insert layer.val (s.released k).reasons) := by
    refine h.good.explained.mono ?_
    rintro i (hi | hi)
    · rcases mem_heldLayers_of_released hdown hi with hother | ⟨_, heq, rfl⟩
      · exact .inr (.inl hother)
      · cases heq
        exact .inl rfl
    · exact .inr (.inr hi)
  refine .of_tracked (release_osl_good (s := s.released k) hexplained h.good.data_off
    (fun i hi => h.good.held_off i (heldLayers_released_subset hi)) hlayer tapCount now hlast
    fun hon hmem => (h.tracked hon).lit _ hself hmem) ?_
  cases hon : s.oneshotEnable with
  | false =>
    have hon' : (s.released k).oneshotEnable = false := hon
    simp only [opOneshotLayer, hon', Bool.false_eq_true, not_false_eq_true, if_true, if_false]
    refine ⟨fun h => absurd (hon'.symm.trans h) (by decide), fun hne => ?_⟩
    exact absurd (hon.symm.trans (h.pressedHeld hne).1) (by decide)
  | true =>
    have hon' : (s.released k).oneshotEnable = true := hon
    have htracked := h.tracked hon
    have hreleased : Tracked (s.released k) :=
      ⟨fun i hi j hj => htracked.one i (heldLayers_released_subset hi) j (heldLayers_released_subset hj),
        fun i hi => htracked.data i (heldLayers_released_subset hi),
        fun i hi => htracked.lit i (heldLayers_released_subset hi)⟩
    have hcleared : Tracked ((s.released k).clearOneshotLayerState oneshotPressed) := hreleased.clear hon' _
    have hnone : ((s.released k).clearOneshotLayerState oneshotPressed).state &&& oneshotPressed = 0 := by
      rw [clearOneshotLayerState]
      split
      · show (0 : OneshotBits) &&& oneshotPressed = 0
        decide
      · show s.state &&& ~~~oneshotPressed &&& oneshotPressed = 0
        generalize s.state = state
        revert state
        decide
    have hon'' := (clearOneshotLayerState_oneshotEnable (s := s.released k) oneshotPressed).trans hon'
    simp only [opOneshotLayer, hon', not_true_eq_false, Bool.false_eq_true, if_false]
    split
    · split
      · rw [reset_setOneshotLayer _ _ _ hon', setOneshotLayer, if_pos hon']
        have hne : oneshotToggled ≠ 0 := by decide
        refine ⟨fun _ => ⟨hreleased.one, fun i hi _ => ?_, fun _ _ _ => hne⟩, .of_state oneshotToggled rfl (by decide)⟩
        exact htracked.one i (heldLayers_released_subset hi) _ hself
      · exact ⟨fun _ => hcleared, fun hne => absurd hnone hne⟩
    · split
      · refine ⟨fun _ => hcleared.clear hon'' _, .clear fun hne => absurd hnone (and_not_and_ne_zero hne)⟩
      · exact ⟨fun _ => hcleared, fun hne => absurd hnone hne⟩

theorem pressed_or_toggled : ∀ {state : OneshotBits}, state &&& ~~~oneshotOtherKeyPressed ≠ 0 →
    state &&& oneshotPressed ≠ 0 ∨ state &&& oneshotToggled ≠ 0 := by decide

theorem Sound.press (h : Sound base s) (hup : s.held k = none) {tapCount : Nat} (now : UInt16)
    (hkept : KeptPress base s tapCount key) :
    Sound base ((s.pressed k key).processRecord settings key true tapCount now) := by
  cases key with
  | osl layer =>
    simp only [processRecord, processAction, if_true, endOneshotLayer_pressed]
    have hheld := heldLayers_congr (endOneshotLayer_held (s := s) (OneshotKey.osl layer).action tapCount)
    refine (h.endOneshotLayer _ tapCount).press_osl ((congrFun (endOneshotLayer_held _ tapCount) k).trans hup) hkept.1
      (fun hon => ?_) (fun hon hne => ?_) tapCount now
    · rw [endOneshotLayer_oneshotEnable] at hon
      exact hheld ▸ (hkept.2 hon).1
    · rw [endOneshotLayer_oneshotEnable] at hon
      have hfound := endOneshotLayer_osl hon layer tapCount hne
      rw [hfound] at hne ⊢
      rcases pressed_or_toggled hne with hpressed | htoggled
      · exact Fin.ext ((hkept.2 hon).1 _ (h.pressedHeld hpressed).2)
      · exact (hkept.2 hon).2 htoggled
  | ordinary ordinaryKey =>
    obtain ⟨hsound, -⟩ : Sound base (s.pressed k (.ordinary ordinaryKey)) ∧ _ :=
      h.pressed_other hup fun _ heq => nomatch heq
    rw [processRecord]
    cases htaken : ordinaryKey.taken with
    | true =>
      simp only [if_true]
      split
      · rename_i hends
        exact hsound.clear hends.2.2 _
      · exact hsound
    | false =>
      simp only [Bool.false_eq_true, if_false, processAction, if_true]
      exact hsound.press_other fun hon hstate => hkept hon hstate htaken
  | switch op =>
    obtain ⟨hsound, hsame⟩ : Sound base (s.pressed k (.switch op)) ∧ _ :=
      h.pressed_other hup fun _ heq => nomatch heq
    simp only [processRecord, if_true, processAction]
    have hswitch : (s.pressed k (.switch op)).oneshotSwitch op =
        (s.pressed k (.switch op)).oneshotSet (switched op s.oneshotEnable) := by
      cases op <;> rfl
    rw [hswitch]
    exact hsound.press_switch (hsame ▸ hkept)

theorem Sound.release (h : Sound base s) (hdown : s.held k = some key) {tapCount : Nat} (now : UInt16) :
    Sound base ((s.released k).processRecord settings key false tapCount now) := by
  cases key with
  | osl layer =>
    simp only [processRecord, processAction, Bool.false_eq_true, if_false]
    exact h.release_osl hdown tapCount now
  | ordinary ordinaryKey =>
    have hsound := h.released_other hdown fun _ heq => nomatch heq
    rw [processRecord]
    simp only [processAction, Bool.false_eq_true, false_and, and_false, if_false, ite_self]
    exact hsound
  | switch op =>
    have hsound := h.released_other hdown fun _ heq => nomatch heq
    simp only [processRecord, processAction, Bool.false_eq_true, false_and, if_false]
    exact hsound

def Kept (base : BitVec w) (s : Oneshot κ w) : OneshotEvent κ → Prop
  | .press k key tapCount _ => s.held k = none → KeptPress base s tapCount key
  | .exec _ | .release _ _ _ => True

def KeptRun (settings : OneshotSettings) (base : BitVec w) (s : Oneshot κ w) : List (OneshotEvent κ) → Prop
  | [] => True
  | e :: events => Kept base s e ∧ KeptRun settings base (s.step settings e) events

omit [DecidableEq κ] in
theorem start_sound (base : BitVec w) : Sound base (start base : Oneshot κ w) := by
  have hnone : (start base : Oneshot κ w).heldLayers = ∅ :=
    Set.eq_empty_of_forall_notMem fun _ ⟨_, _, hheld, _⟩ => nomatch hheld
  refine ⟨⟨Explained.start _ _, fun hn => absurd rfl hn, ?_⟩, fun _ => ⟨?_, ?_, ?_⟩, .of_state 0 rfl (by decide)⟩ <;>
    rw [hnone] <;> intro i hi <;> cases hi

theorem Sound.step (h : Sound base s) {e : OneshotEvent κ} (hkept : Kept base s e) :
    Sound base (s.step settings e) := by
  cases e with
  | exec now =>
    rw [Oneshot.step, Oneshot.checkTimeout]
    split
    · rename_i htimeout
      exact h.clear htimeout.1 _
    · exact h
  | press k key tapCount now =>
    rw [Oneshot.step]
    cases hup : s.held k with
    | some _ => exact h
    | none => exact h.press hup now (hkept hup)
  | release k tapCount now =>
    rw [Oneshot.step]
    cases hdown : s.held k with
    | some key => exact h.release hdown now
    | none => exact h

theorem Sound.run (h : Sound base s) {events : List (OneshotEvent κ)} (hkept : KeptRun settings base s events) :
    Sound base (s.run settings events) := by
  induction events generalizing s with
  | nil => exact h
  | cons e events ih => exact ih (h.step hkept.1) hkept.2

/-- With all keys up, and no layer pending or locked, the layers are those of the start. -/
theorem oneshot_layers_restored (settings : OneshotSettings) (base : BitVec w) (events : List (OneshotEvent κ))
    (hkept : KeptRun settings base (start base : Oneshot κ w) events)
    (hup : ∀ k, ((start base : Oneshot κ w).run settings events).held k = none)
    (hstate : ((start base : Oneshot κ w).run settings events).state = 0) :
    ((start base : Oneshot κ w).run settings events).layerState = base := by
  have hgood := ((start_sound base).run hkept).good
  have hnone : ∀ i, i ∉ ((start base : Oneshot κ w).run settings events).reasons := by
    rintro i (⟨k, layer, hheld, _⟩ | ⟨hne, _⟩)
    · rw [hup k] at hheld
      exact nomatch hheld
    · exact hne hstate
  have heq := hgood.explained.eq_base hnone
  apply BitVec.eq_of_getLsbD_eq
  intro i _
  exact Bool.eq_iff_iff.mpr (Set.ext_iff.mp heq i)

end Records

/-- One-shot keys that are locked by five taps and time out after five seconds. -/
def fiveTaps : OneshotSettings := ⟨5, 5000⟩

def keyA : OrdinaryKey := ⟨4, false, by decide⟩

section

/-- For the layers written as numbers. -/
local instance : NeZero 32 := ⟨by decide⟩

/-- The key for layer 1 is tapped, then another key, which ends the layer. -/
def tapThenKey (key : OneshotKey) : List (OneshotEvent Bool) :=
  [.press false (.osl 1) 1 100, .release false 1 150, .press true key 0 200, .release true 0 250]

/-- The key for layer 1 is held for another key, and tapped for one. Then one-shot keys are switched off and on, and the
key is tapped once more until it has timed out. -/
def heldAndTapped : List (OneshotEvent Bool) :=
  [.press false (.osl 1) 0 100, .press true (.ordinary keyA) 0 150, .release true 0 200, .release false 0 250] ++
    tapThenKey (.ordinary keyA) ++
    [.press true (.switch .off) 0 500, .release true 0 550, .press true (.switch .on) 0 600, .release true 0 650] ++
    [.press false (.osl 1) 1 700, .release false 1 750, .exec 6000]

end

theorem zero_layersOf (i : Nat) : i ∉ layersOf (0 : BitVec 16) := by
  simp [layersOf]

theorem heldAndTapped_restored :
    ((start 0 : Oneshot Bool 16).run fiveTaps heldAndTapped).layerState = 0 := by
  have hnone : ∀ s : Oneshot Bool 16, s.held false = none → s.held true = none → s.heldLayers = ∅ := by
    intro s hfalse htrue
    refine Set.eq_empty_of_forall_notMem ?_
    rintro i ⟨k, layer, hheld, -⟩
    cases k with
    | false => exact nomatch hfalse.symm.trans hheld
    | true => exact nomatch htrue.symm.trans hheld
  have hosl : ∀ (s : Oneshot Bool 16) (layer : Fin 32) (tapCount : Nat), s.heldLayers = ∅ →
      s.state &&& oneshotToggled = 0 → KeptPress 0 s tapCount (.osl layer) := by
    intro s layer tapCount hup hlocked
    refine ⟨zero_layersOf _, fun _ => ⟨fun i hi => ?_, fun hne => absurd hlocked hne⟩⟩
    rw [hup] at hi
    cases hi
  have hkey : ∀ s : Oneshot Bool 16, KeptPress 0 s 0 (.ordinary keyA) := fun _ _ _ _ _ => zero_layersOf 0
  have hswitch : ∀ (s : Oneshot Bool 16) (op : OneshotSwitch), switched op s.oneshotEnable ≠ s.oneshotEnable →
      s.heldLayers = ∅ → s.state ≠ oneshotOtherKeyPressed → KeptPress 0 s 0 (.switch op) := by
    intro s op hne hup hpending
    rw [KeptPress, if_neg hne]
    exact ⟨hup, fun _ => hpending⟩
  refine oneshot_layers_restored fiveTaps 0 _ ⟨fun _ => hosl _ _ _ (hnone _ rfl rfl) (by decide), fun _ => hkey _,
    trivial, trivial, fun _ => hosl _ _ _ (hnone _ rfl rfl) (by decide), trivial, fun _ => hkey _, trivial,
    fun _ => hswitch _ _ (by decide) (hnone _ rfl rfl) (by decide), trivial,
    fun _ => hswitch _ _ (by decide) (hnone _ rfl rfl) (by decide), trivial,
    fun _ => hosl _ _ _ (hnone _ rfl rfl) (by decide), trivial, trivial, trivial⟩ ?_ (by decide)
  intro k
  cases k <;> rfl

/-- The key that switches one-shot keys off leaves the pending layer on. -/
theorem pending_layer_stays :
    ¬ ∀ (settings : OneshotSettings) (base : BitVec 16) (events : List (OneshotEvent Bool)),
      (∀ k, ((start base : Oneshot Bool 16).run settings events).held k = none) →
      ((start base : Oneshot Bool 16).run settings events).state = 0 →
      ((start base : Oneshot Bool 16).run settings events).layerState = base := by
  intro h
  have hlit := h fiveTaps 0 (tapThenKey (.switch .off)) (fun k => by cases k <;> rfl) (by decide)
  exact absurd hlit (by decide)

end Oneshot

end Keys
end VialQmk
