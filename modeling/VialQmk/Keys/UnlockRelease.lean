import VialQmk.Keys.ProcessAction

/-!
# Keys.UnlockRelease

Key lookups while the board is being unlocked: `keymap_key_to_keycode` answers `KC_NO` for every
position until the unlock has ended, also to the release of a key that was pressed before.

* `processRecord` resolves an event and executes its action.
* `release_of_press`: as long as no other press stores its layer in the entry of the position, the
  release is looked up on the layer of the press, whatever else happens in between.
* `unlock_release`: the release is resolved to the keycode of the press if and only if the unlock
  has ended when it is processed.
-/

namespace VialQmk
namespace Keys

/-- The keyboard, the layer caches and the state of the unlock. -/
structure Device (cfg : LayerConfig) extends Keyboard cfg where
  sourceLayersCache : SliceCache
  encoderSourceLayersCache : SliceCache
  disableActionCache : Bool
  vialUnlockInProgress : Bool
  gVialMagicKeycodeOverride : Nat

/-- The handlers of `process_record_quantum`: the keycodes they keep from `process_action`, and what
they do with them. -/
structure QuantumConfig (cfg : LayerConfig) extends ActionConfig cfg where
  consumes : Nat → Bool
  consume : Nat → Bool → Keyboard cfg → Keyboard cfg

section Processing

variable {cfg : LayerConfig}

def keymapKeyToKeycode (s : Device cfg) (layer : Nat) (key : KeyPos) : Nat :=
  if s.vialUnlockInProgress then kcNo
  else if key.row = vialMatrixMagic ∧ key.col = vialMatrixMagic then s.gVialMagicKeycodeOverride
  else cfg.keycode layer key

namespace Device

variable (s : Device cfg)

def view : LayerConfig := { cfg with keycode := keymapKeyToKeycode s }

def layers : Layers s.view where
  layerState := s.layerState
  defaultLayerState := s.defaultLayerState
  sourceLayersCache := s.sourceLayersCache
  encoderSourceLayersCache := s.encoderSourceLayersCache
  disableActionCache := s.disableActionCache

def setCaches (l : Layers s.view) : Device cfg :=
  { s with
    sourceLayersCache := l.sourceLayersCache
    encoderSourceLayersCache := l.encoderSourceLayersCache }

end Device

def resolveKeycode (s : Device cfg) (key : KeyPos) (pressed : Bool) : Nat × Device cfg :=
  let r := getEventKeycode s.view s.layers key pressed true
  (r.1, s.setCaches r.2)

def resolveAction (s : Device cfg) (pressed : Bool) (key : KeyPos) : Nat × Device cfg :=
  let r := storeOrGetAction s.view s.layers pressed key
  (r.1, s.setCaches r.2)

/-- `process_record`: the keycode the event is resolved to, and the state behind it. -/
def processRecord (qcfg : QuantumConfig cfg) (s : Device cfg) (key : KeyPos) (pressed : Bool)
    (tapCount : Nat) : Nat × Device cfg :=
  let (keycode, s) := resolveKeycode s key pressed
  if qcfg.consumes keycode then
    (keycode, { s with toKeyboard := qcfg.consume keycode pressed s.toKeyboard })
  else
    let (action, s) := resolveAction s pressed key
    (keycode,
      { s with toKeyboard := processAction qcfg.toActionConfig action pressed tapCount s.toKeyboard })

/-- What happens between the press and the release of a key: other events are processed, an unlock
starts or ends, a magic keycode is set, and the report and the layers change in other ways. -/
inductive DeviceStep (cfg : LayerConfig) where
  | record (key : KeyPos) (pressed : Bool) (tapCount : Nat)
  | unlockStart
  | unlockEnd
  | magic (keycode : Nat)
  | keyboard (change : Keyboard cfg → Keyboard cfg)

namespace DeviceStep

def exec (qcfg : QuantumConfig cfg) (s : Device cfg) : DeviceStep cfg → Device cfg
  | .record key pressed tapCount => (processRecord qcfg s key pressed tapCount).2
  | .unlockStart => { s with vialUnlockInProgress := true }
  | .unlockEnd => { s with vialUnlockInProgress := false }
  | .magic keycode => { s with gVialMagicKeycodeOverride := keycode }
  | .keyboard change => { s with toKeyboard := change s.toKeyboard }

/-- The step is a press that stores its layer in the cache entry of `p`. -/
def Presses (p : KeyPos) : DeviceStep cfg → Prop
  | .record key pressed _ => pressed = true ∧ Twin cfg p key
  | _ => False

end DeviceStep

def runDevice (qcfg : QuantumConfig cfg) (s : Device cfg) (steps : List (DeviceStep cfg)) : Device cfg :=
  steps.foldl (DeviceStep.exec qcfg) s

end Processing

section Cached

variable {cfg : LayerConfig} {qcfg : QuantumConfig cfg} {s : Device cfg} {p key : KeyPos}

def cachedLayer (s : Device cfg) (p : KeyPos) : Nat := readSourceLayersCache s.view s.layers p

theorem cachedLayer_congr {s' : Device cfg} (h : s'.sourceLayersCache = s.sourceLayersCache)
    (h' : s'.encoderSourceLayersCache = s.encoderSourceLayersCache) :
    cachedLayer s' p = cachedLayer s p := by
  simp only [cachedLayer, readSourceLayersCache, Device.layers, h, h']
  rfl

theorem cachedLayer_setKeyboard (s : Device cfg) (keyboard : Keyboard cfg) :
    cachedLayer { s with toKeyboard := keyboard } p = cachedLayer s p :=
  cachedLayer_congr rfl rfl

theorem resolveKeycode_release (hs : s.disableActionCache = false) :
    resolveKeycode s key false = (keymapKeyToKeycode s (cachedLayer s key) key, s) := by
  have hlayers : s.layers.disableActionCache = false := hs
  have hset : s.setCaches s.layers = s := rfl
  simp [resolveKeycode, getEventKeycode, eventLayer, hlayers, hset, cachedLayer, Device.view]

theorem resolveAction_release (hs : s.disableActionCache = false) :
    resolveAction s false key = (cfg.action (keymapKeyToKeycode s (cachedLayer s key) key), s) := by
  have hlayers : s.layers.disableActionCache = false := hs
  have hset : s.setCaches s.layers = s := rfl
  simp [resolveAction, storeOrGetAction, actionLayer, hlayers, hset, cachedLayer, Device.view,
    actionForKey]

/-- The layer a press of the position is looked up on, and stores. -/
def pressLayer (s : Device cfg) (key : KeyPos) : Nat := layerSwitchGetLayer s.view s.layers key

def storePress (s : Device cfg) (key : KeyPos) : Device cfg :=
  s.setCaches (updateSourceLayersCache s.view s.layers key (pressLayer s key))

theorem resolveKeycode_press (hs : s.disableActionCache = false) :
    resolveKeycode s key true = (keymapKeyToKeycode s (pressLayer s key) key, storePress s key) := by
  have hlayers : s.layers.disableActionCache = false := hs
  simp [resolveKeycode, getEventKeycode, eventLayer, hlayers, pressLayer, storePress, Device.view]

theorem resolveAction_press (hs : s.disableActionCache = false) :
    resolveAction s true key =
      (cfg.action (keymapKeyToKeycode s (pressLayer s key) key), storePress s key) := by
  have hlayers : s.layers.disableActionCache = false := hs
  simp [resolveAction, storeOrGetAction, actionLayer, hlayers, pressLayer, storePress, Device.view,
    actionForKey]

theorem cachedLayer_storePress_twin (hp : Covered cfg p) (h : Twin cfg p key) :
    cachedLayer (storePress s key) p = pressLayer s key := by
  have hbits := fun b =>
    @topLayer_testBit s.view (s.layerState ||| s.defaultLayerState) key cfg.maxLayer b
  have hread := @read_update_twin s.view s.layers p key hp h (pressLayer s key) hbits
  exact hread

theorem cachedLayer_storePress_of_not_twin (h : ¬ Twin cfg p key) :
    cachedLayer (storePress s key) p = cachedLayer s p :=
  @read_update_of_not_twin s.view s.layers p key h (pressLayer s key)

theorem pressLayer_storePress : pressLayer (storePress s key) key = pressLayer s key := rfl

/-- What processing an event does to the device apart from its report and layers: a release nothing, a
press stores its layer, once or twice. -/
theorem processRecord_caches (qcfg : QuantumConfig cfg) (hs : s.disableActionCache = false)
    (key : KeyPos) (pressed : Bool) (tapCount : Nat) :
    ∃ keyboard : Keyboard cfg,
      (processRecord qcfg s key pressed tapCount).2 =
        { (if pressed then
            (if qcfg.consumes (processRecord qcfg s key pressed tapCount).1 then storePress s key
              else storePress (storePress s key) key)
          else s) with toKeyboard := keyboard } := by
  cases pressed with
  | false =>
    simp only [processRecord, resolveKeycode_release hs, resolveAction_release hs]
    split <;> exact ⟨_, rfl⟩
  | true =>
    have hs' : (storePress s key).disableActionCache = false := hs
    simp only [processRecord, resolveKeycode_press hs, resolveAction_press hs']
    split
    · simp only [if_true]
      exact ⟨_, rfl⟩
    · simp only [if_true]
      exact ⟨_, rfl⟩

end Cached

section Runs

variable {cfg : LayerConfig} {qcfg : QuantumConfig cfg} {s : Device cfg} {p : KeyPos}

theorem exec_keeps (qcfg : QuantumConfig cfg) (hs : s.disableActionCache = false)
    {step : DeviceStep cfg} (h : ¬ step.Presses p) :
    (step.exec qcfg s).disableActionCache = false ∧
      cachedLayer (step.exec qcfg s) p = cachedLayer s p := by
  cases step with
  | record key pressed tapCount =>
    obtain ⟨keyboard, hk⟩ := processRecord_caches qcfg hs key pressed tapCount
    rw [DeviceStep.exec, hk]
    cases pressed with
    | false => exact ⟨hs, rfl⟩
    | true =>
      have htwin : ¬ Twin cfg p key := fun htwin => h ⟨rfl, htwin⟩
      rw [cachedLayer_setKeyboard, if_pos rfl]
      split
      · rw [cachedLayer_storePress_of_not_twin htwin]
        exact ⟨hs, rfl⟩
      · rw [cachedLayer_storePress_of_not_twin htwin, cachedLayer_storePress_of_not_twin htwin]
        exact ⟨hs, rfl⟩
  | unlockStart => exact ⟨hs, rfl⟩
  | unlockEnd => exact ⟨hs, rfl⟩
  | magic keycode => exact ⟨hs, rfl⟩
  | keyboard change => exact ⟨hs, rfl⟩

theorem runDevice_keeps (qcfg : QuantumConfig cfg) (steps : List (DeviceStep cfg)) :
    ∀ {s : Device cfg}, s.disableActionCache = false → (∀ step ∈ steps, ¬ step.Presses p) →
      (runDevice qcfg s steps).disableActionCache = false ∧
        cachedLayer (runDevice qcfg s steps) p = cachedLayer s p := by
  induction steps with
  | nil => exact fun hs _ => ⟨hs, rfl⟩
  | cons step steps ih =>
    intro s hs h
    obtain ⟨hstep, hrest⟩ := List.forall_mem_cons.mp h
    obtain ⟨hs', hcached⟩ := exec_keeps qcfg hs hstep
    obtain ⟨hrun, hlayer⟩ := ih hs' hrest
    exact ⟨hrun, hlayer.trans hcached⟩

/-- After a press and any steps without another press in its cache entry, the release is looked up on
the layer of the press. -/
theorem release_of_press (qcfg : QuantumConfig cfg) (hs : s.disableActionCache = false)
    (hp : Covered cfg p) (tapCount : Nat)
    {steps : List (DeviceStep cfg)} (h : ∀ step ∈ steps, ¬ step.Presses p) :
    (runDevice qcfg (processRecord qcfg s p true tapCount).2 steps).disableActionCache = false ∧
      cachedLayer (runDevice qcfg (processRecord qcfg s p true tapCount).2 steps) p = pressLayer s p := by
  obtain ⟨keyboard, hk⟩ := processRecord_caches qcfg hs p true tapCount
  have hpress : (processRecord qcfg s p true tapCount).2.disableActionCache = false ∧
      cachedLayer (processRecord qcfg s p true tapCount).2 p = pressLayer s p := by
    rw [hk, cachedLayer_setKeyboard, if_pos rfl]
    split
    · rw [cachedLayer_storePress_twin hp (.inl rfl)]
      exact ⟨hs, rfl⟩
    · rw [cachedLayer_storePress_twin hp (.inl rfl), pressLayer_storePress]
      exact ⟨hs, rfl⟩
  obtain ⟨hrun, hlayer⟩ := runDevice_keeps qcfg steps hpress.1 h
  exact ⟨hrun, hlayer.trans hpress.2⟩

end Runs

section Unlock

variable {cfg : LayerConfig} {qcfg : QuantumConfig cfg} {s : Device cfg} {key p : KeyPos}

theorem processRecord_release (hs : s.disableActionCache = false) (tapCount : Nat) :
    let keycode := keymapKeyToKeycode s (cachedLayer s key) key
    let keyboard :=
      if qcfg.consumes keycode = true then qcfg.consume keycode false s.toKeyboard
      else processAction qcfg.toActionConfig (cfg.action keycode) false tapCount s.toKeyboard
    processRecord qcfg s key false tapCount = (keycode, { s with toKeyboard := keyboard }) := by
  simp only [processRecord, resolveKeycode_release hs, resolveAction_release hs]
  split <;> rfl

/-- The release of `p` is resolved to the keycode that was pressed, and what the press of that keycode
turned on is off behind it. -/
def ReleasedAsPressed (qcfg : QuantumConfig cfg) (s : Device cfg) (p : KeyPos) (pressTap : Nat)
    (steps : List (DeviceStep cfg)) (releaseTap : Nat) : Prop :=
  let press := processRecord qcfg s p true pressTap
  let release := processRecord qcfg (runDevice qcfg press.2 steps) p false releaseTap
  release.1 = press.1 ∧
    (qcfg.consumes press.1 = false →
      Undone qcfg.toActionConfig (cfg.action press.1) releaseTap release.2.toKeyboard)

/-- **Releases across an unlock.** For every keymap and every run between the press of a key and its
release, the release is resolved to the keycode of the press if and only if the unlock has ended when
the release is processed, or the press had resolved to `KC_NO`. -/
theorem unlock_release (qcfg : QuantumConfig cfg) (s : Device cfg) (hs : s.disableActionCache = false)
    (hu : s.vialUnlockInProgress = false) (p : KeyPos) (hp : Covered cfg p) (pressTap releaseTap : Nat)
    (steps : List (DeviceStep cfg)) (h : ∀ step ∈ steps, ¬ step.Presses p) :
    ReleasedAsPressed qcfg s p pressTap steps releaseTap ↔
      (runDevice qcfg (processRecord qcfg s p true pressTap).2 steps).vialUnlockInProgress = false ∨
        (processRecord qcfg s p true pressTap).1 = kcNo := by
  obtain ⟨hrun, hlayer⟩ := release_of_press qcfg hs hp pressTap h
  have hmagic : ¬ (p.row = vialMatrixMagic ∧ p.col = vialMatrixMagic) := by
    rintro ⟨hrow, -⟩
    rcases hp with hp | hp
    · exact hp.1 hrow
    · exact hp.not_magic hrow
  have hpress : (processRecord qcfg s p true pressTap).1 = cfg.keycode (pressLayer s p) p := by
    have hk : (processRecord qcfg s p true pressTap).1 = keymapKeyToKeycode s (pressLayer s p) p := by
      simp only [processRecord, resolveKeycode_press hs]
      split <;> rfl
    rw [hk, keymapKeyToKeycode, hu, if_neg Bool.false_ne_true, if_neg hmagic]
  unfold ReleasedAsPressed
  simp only [processRecord_release hrun, hlayer]
  generalize runDevice qcfg (processRecord qcfg s p true pressTap).2 steps = s' at hrun
  rw [hpress]
  cases hu' : s'.vialUnlockInProgress with
  | true =>
    have hkc : keymapKeyToKeycode s' (pressLayer s p) p = kcNo := if_pos hu'
    rw [hkc]
    constructor
    · exact fun hrel => .inr hrel.1.symm
    · rintro (hfalse | hno)
      · cases hfalse
      · refine ⟨hno.symm, fun hpass => ?_⟩
        rw [hno] at hpass ⊢
        rw [hpass]
        exact processAction_release _ _
  | false =>
    have hkc : keymapKeyToKeycode s' (pressLayer s p) p = cfg.keycode (pressLayer s p) p := by
      rw [keymapKeyToKeycode, hu', if_neg Bool.false_ne_true, if_neg hmagic]
    rw [hkc]
    refine iff_of_true ⟨rfl, fun hpass => ?_⟩ (.inl rfl)
    rw [hpass]
    exact processAction_release _ _

def Device.initial (cfg : LayerConfig) : Device cfg where
  layerState := 0
  defaultLayerState := 1
  keys := .replicate 6 0
  realMods := 0
  weakMods := 0
  sourceLayersCache _ _ := 0
  encoderSourceLayersCache _ _ := 0
  disableActionCache := false
  vialUnlockInProgress := false
  gVialMagicKeycodeOverride := 0

def QuantumConfig.plain (cfg : LayerConfig) : QuantumConfig cfg where
  tappingToggle := 5
  otherAction _ _ _ s := s
  consumes _ := false
  consume _ _ s := s

/-- The key `A` is pressed, the host starts an unlock, and the key is released: it stays in the
report. -/
theorem unlock_strands_key :
    ¬ ReleasedAsPressed (.plain .knob) (.initial .knob) ⟨0, 0⟩ 0 [.unlockStart] 0 ∧
      4 ∈ (processRecord (.plain .knob) (runDevice (.plain .knob)
        (processRecord (.plain .knob) (.initial .knob) ⟨0, 0⟩ true 0).2 [.unlockStart])
          ⟨0, 0⟩ false 0).2.keys := by
  refine ⟨fun h => absurd h.1 (by decide), by decide⟩

theorem unlock_release_knob :
    ReleasedAsPressed (.plain .knob) (.initial .knob) ⟨0, 0⟩ 0 [.unlockStart, .unlockEnd] 0 := by
  refine (unlock_release (.plain .knob) (.initial .knob) rfl rfl ⟨0, 0⟩
    (.inl (by unfold OnMatrix; decide)) 0 0 [.unlockStart, .unlockEnd] ?_).mpr (.inl rfl)
  intro step hstep
  simp only [List.mem_cons, List.not_mem_nil, or_false] at hstep
  rcases hstep with rfl | rfl <;> exact fun h => h

end Unlock

end Keys
end VialQmk
