import Mathlib.Logic.Function.Basic
import Mathlib.Tactic.Common

/-!
# Keys.SourceLayers

The source-layer cache of `action_layer.c`: one bit for each position and each bit of the layer
number, eight positions to a byte. `get_event_keycode` and `store_or_get_action` store the layer of a
press in it, or take the layer of a release from it.

* `readImpl_updateImpl`, `readImpl_updateImpl_of_ne`: the bit slices as an array of layers.
* `press_release_layer`: a release is resolved on the layer of the last press.
-/

namespace VialQmk
namespace Keys

inductive LayerStateType where
  | bit8 | bit16 | bit32
  deriving DecidableEq, Repr

def LayerStateType.width : LayerStateType → Nat
  | .bit8 => 8
  | .bit16 => 16
  | .bit32 => 32

def LayerStateType.maxLayerBits : LayerStateType → Nat
  | .bit8 => 3
  | .bit16 => 4
  | .bit32 => 5

structure KeyPos where
  row : Nat
  col : Nat
  deriving DecidableEq, Repr

def vialMatrixMagic : Nat := 240
def keylocEncoderCw : Nat := 253
def keylocEncoderCcw : Nat := 252

/-- What the layers of a board depend on: the sizes, and the fixed keymap with its actions. -/
structure LayerConfig where
  matrixRows : Nat
  matrixCols : Nat
  encoderMapEnable : Bool
  layerStateType : LayerStateType
  /-- `MAX_LAYER`. -/
  maxLayer : Nat
  /-- `keymap_key_to_keycode`. -/
  keycode : Nat → KeyPos → Nat
  /-- `action_for_keycode`. -/
  action : Nat → Nat

def actionTransparent : Nat := 1

abbrev LayerState (cfg : LayerConfig) := BitVec cfg.layerStateType.width

abbrev SliceCache := Nat → Nat → BitVec 8

structure Layers (cfg : LayerConfig) where
  layerState : LayerState cfg
  defaultLayerState : LayerState cfg
  sourceLayersCache : SliceCache
  encoderSourceLayersCache : SliceCache
  disableActionCache : Bool

section Slices

variable (bits : Nat)

def updateSlice (layer entryNumber : Nat) (cache : SliceCache) (bitNumber : Nat) : SliceCache :=
  let storageIdx := entryNumber / 8
  let storageBit := entryNumber % 8
  let cell := cache storageIdx bitNumber
  let ones := if layer.testBit bitNumber then 255#8 else 0#8
  Function.update cache storageIdx
    (Function.update (cache storageIdx) bitNumber
      (cell ^^^ ((ones ^^^ cell) &&& (1#8 <<< storageBit))))

def updateSourceLayersCacheImpl (layer entryNumber : Nat) (cache : SliceCache) : SliceCache :=
  (List.range bits).foldl (updateSlice layer entryNumber) cache

def readSlice (entryNumber : Nat) (cache : SliceCache) (layer bitNumber : Nat) : Nat :=
  let storageIdx := entryNumber / 8
  let storageBit := entryNumber % 8
  layer ||| ((if cache storageIdx bitNumber &&& (1#8 <<< storageBit) ≠ 0#8 then 1 else 0) <<< bitNumber)

def readSourceLayersCacheImpl (entryNumber : Nat) (cache : SliceCache) : Nat :=
  (List.range bits).foldl (readSlice entryNumber cache) 0

end Slices

section Cache

variable (cfg : LayerConfig)

def updateSourceLayersCache (s : Layers cfg) (key : KeyPos) (layer : Nat) : Layers cfg :=
  let bits := cfg.layerStateType.maxLayerBits
  if key.row = vialMatrixMagic then s
  else if key.row < cfg.matrixRows ∧ key.col < cfg.matrixCols then
    let entryNumber := key.row * cfg.matrixCols + key.col
    let cache := updateSourceLayersCacheImpl bits layer entryNumber s.sourceLayersCache
    { s with sourceLayersCache := cache }
  else if cfg.encoderMapEnable ∧ (key.row = keylocEncoderCw ∨ key.row = keylocEncoderCcw) then
    let entryNumber := key.col
    let cache := updateSourceLayersCacheImpl bits layer entryNumber s.encoderSourceLayersCache
    { s with encoderSourceLayersCache := cache }
  else s

def readSourceLayersCache (s : Layers cfg) (key : KeyPos) : Nat :=
  let bits := cfg.layerStateType.maxLayerBits
  if key.row = vialMatrixMagic then 0
  else if key.row < cfg.matrixRows ∧ key.col < cfg.matrixCols then
    let entryNumber := key.row * cfg.matrixCols + key.col
    readSourceLayersCacheImpl bits entryNumber s.sourceLayersCache
  else if cfg.encoderMapEnable ∧ (key.row = keylocEncoderCw ∨ key.row = keylocEncoderCcw) then
    let entryNumber := key.col
    readSourceLayersCacheImpl bits entryNumber s.encoderSourceLayersCache
  else 0

def actionForKey (layer : Nat) (key : KeyPos) : Nat := cfg.action (cfg.keycode layer key)

/-- The loop of `layer_switch_get_layer` over the layers below `i`, from the top. -/
def topLayer (layers : LayerState cfg) (key : KeyPos) : Nat → Nat
  | 0 => 0
  | i + 1 =>
    if layers.getLsbD i ∧ actionForKey cfg i key ≠ actionTransparent then i
    else topLayer layers key i

def layerSwitchGetLayer (s : Layers cfg) (key : KeyPos) : Nat :=
  topLayer cfg (s.layerState ||| s.defaultLayerState) key cfg.maxLayer

def eventLayer (s : Layers cfg) (key : KeyPos) (pressed updateLayerCache : Bool) : Nat × Layers cfg :=
  if !s.disableActionCache then
    if pressed && updateLayerCache then
      let layer := layerSwitchGetLayer cfg s key
      (layer, updateSourceLayersCache cfg s key layer)
    else (readSourceLayersCache cfg s key, s)
  else (layerSwitchGetLayer cfg s key, s)

def getEventKeycode (s : Layers cfg) (key : KeyPos) (pressed updateLayerCache : Bool) :
    Nat × Layers cfg :=
  let r := eventLayer cfg s key pressed updateLayerCache
  (cfg.keycode r.1 key, r.2)

def actionLayer (s : Layers cfg) (pressed : Bool) (key : KeyPos) : Nat × Layers cfg :=
  if s.disableActionCache then (layerSwitchGetLayer cfg s key, s)
  else if pressed then
    let layer := layerSwitchGetLayer cfg s key
    (layer, updateSourceLayersCache cfg s key layer)
  else (readSourceLayersCache cfg s key, s)

def storeOrGetAction (s : Layers cfg) (pressed : Bool) (key : KeyPos) : Nat × Layers cfg :=
  let r := actionLayer cfg s pressed key
  (actionForKey cfg r.1 key, r.2)

end Cache

section Slices

variable {bits layer n k : Nat} {cache : SliceCache}

theorem and_bit_ne_zero (c : BitVec 8) {j : Nat} (hj : j < 8) :
    c &&& (1#8 <<< j) ≠ 0#8 ↔ c.getLsbD j = true := by
  have hbit : ∀ i, i < 8 → (c &&& (1#8 <<< j)).getLsbD i = (c.getLsbD i && decide (i = j)) := by
    intro i hi
    rw [BitVec.getLsbD_and, BitVec.getLsbD_shiftLeft, BitVec.getLsbD_one]
    by_cases hij : i = j
    · simp [hij, hj]
    · by_cases hlt : i < j
      · simp [hij, hlt]
      · simp [hij, hlt, show i - j ≠ 0 by omega]
  constructor
  · intro h
    by_contra hc
    refine h (BitVec.eq_of_getLsbD_eq fun i hi => ?_)
    rw [hbit i hi]
    by_cases hij : i = j
    · rw [hij, Bool.eq_false_iff.mpr hc, Bool.false_and, BitVec.getLsbD_zero]
    · simp [hij]
  · intro h hzero
    have hone := hbit j hj
    rw [hzero, h] at hone
    simp at hone

theorem merge_getLsbD (c : BitVec 8) (b : Bool) {i j : Nat} (hi : i < 8) :
    (c ^^^ (((if b then 255#8 else 0#8) ^^^ c) &&& (1#8 <<< j))).getLsbD i =
      if i = j then b else c.getLsbD i := by
  have hones : (if b then 255#8 else 0#8).getLsbD i = b := by
    cases b with
    | false => simp
    | true =>
      rw [if_pos rfl, show (255#8) = BitVec.allOnes 8 from rfl, BitVec.getLsbD_allOnes]
      exact decide_eq_true hi
  rw [BitVec.getLsbD_xor, BitVec.getLsbD_and, BitVec.getLsbD_xor, hones, BitVec.getLsbD_shiftLeft,
    BitVec.getLsbD_one]
  by_cases hij : i = j
  · subst hij
    cases b <;> cases c.getLsbD i <;> simp [hi]
  · rw [if_neg hij]
    by_cases hlt : i < j
    · simp [hlt]
    · simp [show i - j ≠ 0 by omega]

theorem updateImpl_apply (bits layer n : Nat) (cache : SliceCache) (idx b : Nat) {j : Nat}
    (hj : j < 8) :
    (updateSourceLayersCacheImpl bits layer n cache idx b).getLsbD j =
      if idx = n / 8 ∧ b < bits ∧ j = n % 8 then layer.testBit b else (cache idx b).getLsbD j := by
  unfold updateSourceLayersCacheImpl
  induction bits with
  | zero => simp
  | succ bits ih =>
    rw [List.range_succ, List.foldl_append, List.foldl_cons, List.foldl_nil]
    generalize (List.range bits).foldl (updateSlice layer n) cache = c at ih ⊢
    simp only [updateSlice]
    by_cases hidx : idx = n / 8
    · subst hidx
      rw [Function.update_self]
      by_cases hb : b = bits
      · subst hb
        rw [Function.update_self, merge_getLsbD _ _ hj, ih]
        by_cases hjn : j = n % 8
        · simp [hjn]
        · simp [hjn]
      · rw [Function.update_of_ne hb, ih]
        simp only [show b < bits + 1 ↔ b < bits by omega]
    · rw [Function.update_of_ne hidx, ih]
      simp [hidx]

theorem readImpl_testBit (bits n : Nat) (cache : SliceCache) (b : Nat) :
    (readSourceLayersCacheImpl bits n cache).testBit b =
      (decide (b < bits) && (cache (n / 8) b).getLsbD (n % 8)) := by
  unfold readSourceLayersCacheImpl
  induction bits with
  | zero => simp
  | succ bits ih =>
    rw [List.range_succ, List.foldl_append, List.foldl_cons, List.foldl_nil]
    generalize (List.range bits).foldl (readSlice n cache) 0 = layer at ih ⊢
    simp only [readSlice]
    rw [Nat.testBit_or, ih, Nat.testBit_shiftLeft]
    simp only [and_bit_ne_zero _ (Nat.mod_lt n (by decide : 0 < 8))]
    by_cases hb : b = bits
    · subst hb
      cases (cache (n / 8) b).getLsbD (n % 8) <;> simp
    · by_cases hlt : b < bits
      · simp [hlt, show ¬ bits ≤ b by omega, show b < bits + 1 by omega]
      · have hne : b - bits ≠ 0 := by omega
        have hone : Nat.testBit 1 (b - bits) = false :=
          Bool.eq_false_iff.mpr (Nat.testBit_one_eq_true_iff_self_eq_zero.not.mpr hne)
        cases (cache (n / 8) bits).getLsbD (n % 8) <;>
          simp [hlt, show ¬ b < bits + 1 by omega, hone]

theorem readImpl_updateImpl {bits layer : Nat} (h : ∀ b, bits ≤ b → layer.testBit b = false) (n : Nat)
    (cache : SliceCache) :
    readSourceLayersCacheImpl bits n (updateSourceLayersCacheImpl bits layer n cache) = layer := by
  refine Nat.eq_of_testBit_eq fun b => ?_
  rw [readImpl_testBit, updateImpl_apply _ _ _ _ _ _ (Nat.mod_lt n (by decide))]
  by_cases hb : b < bits
  · simp [hb]
  · simp [hb, h b (Nat.le_of_not_lt hb)]

theorem readImpl_updateImpl_of_ne (bits layer : Nat) {n k : Nat} (h : k ≠ n) (cache : SliceCache) :
    readSourceLayersCacheImpl bits k (updateSourceLayersCacheImpl bits layer n cache) =
      readSourceLayersCacheImpl bits k cache := by
  refine Nat.eq_of_testBit_eq fun b => ?_
  have hne : ¬ (k / 8 = n / 8 ∧ b < bits ∧ k % 8 = n % 8) := by omega
  rw [readImpl_testBit, readImpl_testBit, updateImpl_apply _ _ _ _ _ _ (Nat.mod_lt k (by decide)),
    if_neg hne]

end Slices

section Positions

variable (cfg : LayerConfig)

def OnMatrix (p : KeyPos) : Prop :=
  p.row ≠ vialMatrixMagic ∧ p.row < cfg.matrixRows ∧ p.col < cfg.matrixCols

def OnEncoder (p : KeyPos) : Prop :=
  ¬ (p.row < cfg.matrixRows ∧ p.col < cfg.matrixCols) ∧ cfg.encoderMapEnable = true ∧
    (p.row = keylocEncoderCw ∨ p.row = keylocEncoderCcw)

def Covered (p : KeyPos) : Prop := OnMatrix cfg p ∨ OnEncoder cfg p

/-- The two positions are one, or the two directions of one encoder. -/
def Twin (p q : KeyPos) : Prop := p = q ∨ (OnEncoder cfg p ∧ OnEncoder cfg q ∧ p.col = q.col)

end Positions

section Cache

variable {cfg : LayerConfig} {s : Layers cfg} {p q : KeyPos}

theorem OnEncoder.not_magic (h : OnEncoder cfg p) : p.row ≠ vialMatrixMagic := by
  obtain ⟨-, -, h | h⟩ := h <;> rw [h] <;> decide

theorem entryNumber_inj {cols : Nat} (hp : p.col < cols) (hq : q.col < cols)
    (h : p.row * cols + p.col = q.row * cols + q.col) : p = q := by
  have hcol : p.col = q.col := by
    have hmod := congrArg (· % cols) h
    simpa [Nat.mul_add_mod_of_lt, Nat.mod_eq_of_lt hp, Nat.mod_eq_of_lt hq] using hmod
  have hrow : p.row * cols = q.row * cols := by omega
  have hpos : 0 < cols := by omega
  cases p
  cases q
  exact KeyPos.mk.injEq .. ▸ ⟨Nat.eq_of_mul_eq_mul_right hpos hrow, hcol⟩

theorem topLayer_testBit (layers : LayerState cfg) (key : KeyPos) (n b : Nat)
    (hb : cfg.layerStateType.maxLayerBits ≤ b) : (topLayer cfg layers key n).testBit b = false := by
  have hlt : topLayer cfg layers key n < cfg.layerStateType.width := by
    induction n with
    | zero => cases h : cfg.layerStateType <;> simp [topLayer, LayerStateType.width]
    | succ n ih =>
      rw [topLayer]
      split
      · rename_i h
        exact BitVec.lt_of_getLsbD h.1
      · exact ih
  refine Nat.testBit_lt_two_pow (Nat.lt_of_lt_of_le hlt ?_)
  refine Nat.le_trans ?_ (Nat.pow_le_pow_right Nat.two_pos hb)
  cases cfg.layerStateType <;> decide

theorem read_update_twin (hp : Covered cfg p) (h : Twin cfg p q) {layer : Nat}
    (hlayer : ∀ b, cfg.layerStateType.maxLayerBits ≤ b → layer.testBit b = false) :
    readSourceLayersCache cfg (updateSourceLayersCache cfg s q layer) p = layer := by
  have henc : OnEncoder cfg p → OnEncoder cfg q → p.col = q.col →
      readSourceLayersCache cfg (updateSourceLayersCache cfg s q layer) p = layer := by
    intro hp hq hcol
    simp only [updateSourceLayersCache, if_neg hq.not_magic, if_neg hq.1, if_pos hq.2,
      readSourceLayersCache, if_neg hp.not_magic, if_neg hp.1, if_pos hp.2]
    rw [hcol]
    exact readImpl_updateImpl hlayer _ _
  rcases h with rfl | ⟨hp, hq, hcol⟩
  · rcases hp with hp | hp
    · simp only [updateSourceLayersCache, if_neg hp.1, if_pos hp.2, readSourceLayersCache]
      exact readImpl_updateImpl hlayer _ _
    · exact henc hp hp rfl
  · exact henc hp hq hcol

theorem read_update_of_not_twin (h : ¬ Twin cfg p q) (layer : Nat) :
    readSourceLayersCache cfg (updateSourceLayersCache cfg s q layer) p =
      readSourceLayersCache cfg s p := by
  unfold updateSourceLayersCache
  dsimp only
  split
  · rfl
  · rename_i hqm
    split
    · rename_i hq
      simp only [readSourceLayersCache]
      split
      · rfl
      · split
        · rename_i hp
          refine readImpl_updateImpl_of_ne _ _ (fun hentry => h (.inl ?_)) _
          exact entryNumber_inj hp.2 hq.2 hentry
        · rfl
    · rename_i hq
      split
      · rename_i hqe
        simp only [readSourceLayersCache]
        split
        · rfl
        · split
          · rfl
          · rename_i hp
            split
            · rename_i hpe
              exact readImpl_updateImpl_of_ne _ _ (fun hcol => h (.inr ⟨⟨hp, hpe⟩, ⟨hq, hqe⟩, hcol⟩)) _
            · rfl
      · rfl

end Cache

/-- What happens to the layers: they are switched, or an event is resolved, for its keycode (by
`pre_process_record_quantum` with an update, by `process_record_quantum` and others without) or for
its action. -/
inductive LayerEvent (cfg : LayerConfig) where
  | switch (layerState defaultLayerState : LayerState cfg)
  | keycode (key : KeyPos) (pressed updateLayerCache : Bool)
  | action (pressed : Bool) (key : KeyPos)

namespace LayerEvent

variable {cfg : LayerConfig}

def exec (s : Layers cfg) : LayerEvent cfg → Layers cfg
  | .switch layerState defaultLayerState =>
    { s with layerState := layerState, defaultLayerState := defaultLayerState }
  | .keycode key pressed updateLayerCache => (getEventKeycode cfg s key pressed updateLayerCache).2
  | .action pressed key => (storeOrGetAction cfg s pressed key).2

def layer (s : Layers cfg) : LayerEvent cfg → Nat
  | .switch _ _ => 0
  | .keycode key pressed updateLayerCache => (eventLayer cfg s key pressed updateLayerCache).1
  | .action pressed key => (actionLayer cfg s pressed key).1

def Stores (p : KeyPos) : LayerEvent cfg → Prop
  | .switch _ _ => False
  | .keycode key pressed updateLayerCache => key = p ∧ pressed = true ∧ updateLayerCache = true
  | .action pressed key => key = p ∧ pressed = true

def Releases (p : KeyPos) : LayerEvent cfg → Prop
  | .switch _ _ => False
  | .keycode key pressed _ => key = p ∧ pressed = false
  | .action pressed key => key = p ∧ pressed = false

end LayerEvent

def runLayers {cfg : LayerConfig} (s : Layers cfg) (events : List (LayerEvent cfg)) : Layers cfg :=
  events.foldl LayerEvent.exec s

section Runs

variable {cfg : LayerConfig} {s : Layers cfg} {e : LayerEvent cfg} {p q : KeyPos}

theorem updateSourceLayersCache_disabled (layer : Nat) :
    (updateSourceLayersCache cfg s p layer).disableActionCache = s.disableActionCache := by
  unfold updateSourceLayersCache
  dsimp only
  split
  · rfl
  · split
    · rfl
    · split <;> rfl

theorem exec_cases (hs : s.disableActionCache = false) (e : LayerEvent cfg) :
    (∃ q, e.Stores q ∧ (∀ b, cfg.layerStateType.maxLayerBits ≤ b → (e.layer s).testBit b = false) ∧
      e.exec s = updateSourceLayersCache cfg s q (e.layer s)) ∨
    ((∀ q, ¬ e.Stores q) ∧ (e.exec s).disableActionCache = false ∧
      ∀ p, readSourceLayersCache cfg (e.exec s) p = readSourceLayersCache cfg s p) := by
  cases e with
  | switch layerState defaultLayerState => exact .inr ⟨fun _ h => h, hs, fun _ => rfl⟩
  | keycode key pressed updateLayerCache =>
    by_cases hu : pressed = true ∧ updateLayerCache = true
    · obtain ⟨rfl, rfl⟩ := hu
      refine .inl ⟨key, ⟨rfl, rfl, rfl⟩, ?_⟩
      simp only [LayerEvent.layer, LayerEvent.exec, getEventKeycode, eventLayer, hs]
      exact ⟨topLayer_testBit _ _ _, rfl⟩
    · have hexec : LayerEvent.exec s (.keycode key pressed updateLayerCache) = s := by
        have hfalse : (pressed && updateLayerCache) = false := by simpa using hu
        simp [LayerEvent.exec, getEventKeycode, eventLayer, hs, hfalse]
      rw [hexec]
      exact .inr ⟨fun q h => hu h.2, hs, fun _ => rfl⟩
  | action pressed key =>
    cases pressed with
    | true =>
      refine .inl ⟨key, ⟨rfl, rfl⟩, ?_⟩
      simp only [LayerEvent.layer, LayerEvent.exec, storeOrGetAction, actionLayer, hs]
      exact ⟨topLayer_testBit _ _ _, rfl⟩
    | false =>
      have hexec : LayerEvent.exec s (.action false key) = s := by
        simp [LayerEvent.exec, storeOrGetAction, actionLayer, hs]
      rw [hexec]
      exact .inr ⟨fun q h => Bool.false_ne_true h.2, hs, fun _ => rfl⟩

theorem exec_disabled (hs : s.disableActionCache = false) (e : LayerEvent cfg) :
    (e.exec s).disableActionCache = false := by
  rcases exec_cases hs e with ⟨q, -, -, hexec⟩ | ⟨-, h, -⟩
  · rw [hexec, updateSourceLayersCache_disabled, hs]
  · exact h

theorem runLayers_disabled (events : List (LayerEvent cfg)) :
    ∀ {s : Layers cfg}, s.disableActionCache = false → (runLayers s events).disableActionCache = false := by
  induction events with
  | nil => exact fun h => h
  | cons e events ih => exact fun h => ih (exec_disabled h e)

/-- Events that store no layer for the position or its twin leave its cached layer as it is. -/
theorem runLayers_keeps (events : List (LayerEvent cfg)) :
    ∀ {s : Layers cfg}, s.disableActionCache = false →
      (∀ e ∈ events, ∀ q, e.Stores q → ¬ Twin cfg p q) →
      readSourceLayersCache cfg (runLayers s events) p = readSourceLayersCache cfg s p := by
  induction events with
  | nil => exact fun _ _ => rfl
  | cons e events ih =>
    intro s hs hother
    obtain ⟨he, hrest⟩ := List.forall_mem_cons.mp hother
    have hrun := ih (exec_disabled hs e) hrest
    rw [runLayers, List.foldl_cons]
    refine hrun.trans ?_
    rcases exec_cases hs e with ⟨q, hstore, -, hexec⟩ | ⟨-, -, hread⟩
    · rw [hexec]
      exact read_update_of_not_twin (he q hstore) _
    · exact hread p

theorem layer_of_releases (hs : s.disableActionCache = false) (h : e.Releases p) :
    e.layer s = readSourceLayersCache cfg s p := by
  cases e with
  | switch layerState defaultLayerState => exact h.elim
  | keycode key pressed updateLayerCache =>
    obtain ⟨rfl, rfl⟩ := h
    simp [LayerEvent.layer, eventLayer, hs]
  | action pressed key =>
    obtain ⟨rfl, rfl⟩ := h
    simp [LayerEvent.layer, actionLayer, hs]

end Runs

/-- **Press and release.** With the cache enabled, in every run of resolutions and layer switches, a
release is resolved on the layer that the last press stored, of the position or of the other direction
of the same encoder; and a store leaves the cached layers of all other positions as they are. -/
theorem press_release_layer (cfg : LayerConfig) (s : Layers cfg) (hs : s.disableActionCache = false)
    (p : KeyPos) (hp : Covered cfg p) :
    (∀ (before after : List (LayerEvent cfg)) (press release : LayerEvent cfg) (q : KeyPos),
      press.Stores q → Twin cfg p q → (∀ e ∈ after, ∀ r, e.Stores r → ¬ Twin cfg p r) →
      release.Releases p →
      release.layer (runLayers s (before ++ press :: after)) = press.layer (runLayers s before)) ∧
    ∀ (q : KeyPos) (layer : Nat), ¬ Twin cfg p q →
      readSourceLayersCache cfg (updateSourceLayersCache cfg s q layer) p =
        readSourceLayersCache cfg s p := by
  refine ⟨?_, fun q layer h => read_update_of_not_twin h layer⟩
  intro before after press release q hpress htwin hafter hrelease
  have hbefore := runLayers_disabled before hs
  have hrun : runLayers s (before ++ press :: after) =
      runLayers (press.exec (runLayers s before)) after := by
    simp [runLayers]
  rw [hrun]
  generalize runLayers s before = s' at hbefore ⊢
  have hdone := exec_disabled hbefore press
  rw [layer_of_releases (runLayers_disabled after hdone) hrelease, runLayers_keeps after hdone hafter]
  rcases exec_cases hbefore press with ⟨r, hr, hbits, hexec⟩ | ⟨hnone, -, -⟩
  · have hqr : q = r := by
      cases press with
      | switch layerState defaultLayerState => exact hpress.elim
      | keycode key pressed updateLayerCache => exact hpress.1.symm.trans hr.1
      | action pressed key => exact hpress.1.symm.trans hr.1
    subst hqr
    rw [hexec]
    exact read_update_twin hp htwin hbits
  · exact absurd hpress (hnone q)

/-- One key, one encoder, and a keymap without transparent keys. -/
def LayerConfig.knob : LayerConfig where
  matrixRows := 1
  matrixCols := 1
  encoderMapEnable := true
  layerStateType := .bit8
  maxLayer := 4
  keycode _ _ := 4
  action code := code

def Layers.initial (cfg : LayerConfig) : Layers cfg := ⟨0, 1, fun _ _ => 0, fun _ _ => 0, false⟩

/-- The key is pressed on layer 1 and released after the layer is switched off. -/
theorem press_release_layer_knob :
    LayerEvent.layer (runLayers (Layers.initial .knob)
      ([.switch 2 1] ++ .keycode ⟨0, 0⟩ true true :: [.switch 0 1])) (.action false ⟨0, 0⟩) = 1 := by
  have h := (press_release_layer .knob (.initial .knob) rfl ⟨0, 0⟩ (.inl (by unfold OnMatrix; decide))).1
    [.switch 2 1] [.switch 0 1] (.keycode ⟨0, 0⟩ true true) (.action false ⟨0, 0⟩) ⟨0, 0⟩
    ⟨rfl, rfl, rfl⟩ (.inl rfl) (by simp [LayerEvent.Stores]) ⟨rfl, rfl⟩
  rw [h]
  decide

/-- A turn of the encoder to one side on layer 1, another to the other side on layer 0 before the
release of the first. -/
theorem encoder_shares_entry :
    LayerEvent.layer (runLayers (Layers.initial .knob)
      [.switch 2 1, .keycode ⟨253, 0⟩ true true, .switch 0 1, .keycode ⟨252, 0⟩ true true])
        (.keycode ⟨253, 0⟩ false true) ≠
      LayerEvent.layer (runLayers (Layers.initial .knob) [.switch 2 1]) (.keycode ⟨253, 0⟩ true true) ∧
    readSourceLayersCache .knob (updateSourceLayersCache .knob (.initial .knob) ⟨252, 0⟩ 1) ⟨253, 0⟩ ≠
      readSourceLayersCache .knob (.initial .knob) ⟨253, 0⟩ := by
  decide

end Keys
end VialQmk
