import Mathlib.Algebra.Order.Ring.Int
import Mathlib.Tactic.Linarith
import VialQmk.Lib.Gray
import VialQmk.Split.Encoder

/-!
# Scan.Quadrature

Rotary encoders (`encoder_quadrature.c`): the pins of each are sampled, decoded into steps, and every `resolution`
steps make an event in the queue of `encoder.c`.

* `read_counts`: what a sample adds to the events and pulses of its encoder is the step that it makes.
* `encoder_counts`: so do all samples together, and the steps are how far the shaft has come.
-/

namespace VialQmk
namespace Scan

open Lib Split

def toInt8 (v : Int) : Int := (v + 128) % 256 - 128

/-- The encoders of one half, without `ENCODER_DEFAULT_POS`. The index of an event has seven bits, in which those of
both halves fit. -/
structure EncoderConfig where
  thisCount : Nat
  thisHand : Nat
  fits : thisHand + thisCount ≤ 128
  /-- `encoder_resolutions`, or `ENCODER_RESOLUTION` for each. -/
  encoderResolutions : UInt8 → UInt8
  resolution_pos : ∀ index, 1 ≤ (encoderResolutions index).toNat
  resolution_le : ∀ index, (encoderResolutions index).toNat ≤ 127
  /-- `ENCODER_DIRECTION_FLIP` -/
  directionFlip : Bool

def EncoderConfig.clockwise (cfg : EncoderConfig) : Bool := !cfg.directionFlip

def EncoderConfig.counterClockwise (cfg : EncoderConfig) : Bool := cfg.directionFlip

def EncoderConfig.index (cfg : EncoderConfig) (i : Fin cfg.thisCount) : UInt8 :=
  UInt8.ofNat i + UInt8.ofNat cfg.thisHand

def EncoderConfig.resolution (cfg : EncoderConfig) (i : Fin cfg.thisCount) : Nat :=
  (cfg.encoderResolutions (cfg.index i)).toNat

def encoderLUT : List Int := [0, -1, 1, 0, 1, 0, 0, -1, -1, 0, 0, 1, 0, 1, -1, 0]

/-- The encoders and the queue, with the events that came into the queue and those that were taken from it, and the
number of those that it had no room for. -/
structure QuadratureState (cfg : EncoderConfig) (cap : Nat) where
  encoderState : Fin cfg.thisCount → UInt8
  encoderPulses : Fin cfg.thisCount → Int
  events : EncoderEvents cap
  queued : List EncoderEvent
  dequeued : List EncoderEvent
  dropped : Nat

namespace QuadratureState

variable {cfg : EncoderConfig} {cap : Nat}

def queueEvent (s : QuadratureState cfg cap) (index : UInt8) (clockwise : Bool) : QuadratureState cfg cap :=
  match encoderQueueEventAdvanced s.events index clockwise with
  | (true, events) => { s with events := events, queued := s.queued ++ [⟨index % 128, clockwise⟩] }
  | (false, events) => { s with events := events, dropped := s.dropped + 1 }

def dequeueEvent (s : QuadratureState cfg cap) : QuadratureState cfg cap :=
  match encoderDequeueEventAdvanced s.events with
  | some (event, events) => { s with events := events, dequeued := s.dequeued ++ [event] }
  | none => s

def queueEvents (s : QuadratureState cfg cap) (i : Fin cfg.thisCount) (pulses : Int) : QuadratureState cfg cap :=
  let resolution : Int := cfg.resolution i
  let s := if pulses ≥ resolution then s.queueEvent (cfg.index i) cfg.counterClockwise else s
  if pulses ≤ -resolution then s.queueEvent (cfg.index i) cfg.clockwise else s

def handleStateChange (s : QuadratureState cfg cap) (i : Fin cfg.thisCount) (state : UInt8) : QuadratureState cfg cap :=
  let pulses := toInt8 (s.encoderPulses i + encoderLUT.getD (state &&& 0xF).toNat 0)
  { s.queueEvents i pulses with
    encoderPulses := Function.update s.encoderPulses i (toInt8 (pulses.tmod (cfg.resolution i))) }

end QuadratureState

def pinState (pinAState pinBState : Bool) : UInt8 := pinAState.toUInt8 ||| (pinBState.toUInt8 <<< 1)

section Read

variable {cfg : EncoderConfig} {cap : Nat}

def QuadratureState.shiftIn (s : QuadratureState cfg cap) (index : Fin cfg.thisCount) (state : UInt8) :
    QuadratureState cfg cap :=
  { s with encoderState := Function.update s.encoderState index ((s.encoderState index <<< 2) ||| state) }

def QuadratureState.handleRead (s : QuadratureState cfg cap) (index : Fin cfg.thisCount) (pinAState pinBState : Bool) :
    QuadratureState cfg cap :=
  let state := pinState pinAState pinBState
  if s.encoderState index &&& 0x3 ≠ state then
    let s := s.shiftIn index state
    s.handleStateChange index (s.encoderState index)
  else s

end Read

/-- A sample of the pins of an encoder, or an event taken from the queue. -/
inductive QuadratureStep (cfg : EncoderConfig) where
  | read (index : Fin cfg.thisCount) (pinAState pinBState : Bool)
  | dequeue

section Run

variable {cfg : EncoderConfig} {cap : Nat}

def QuadratureStep.exec (s : QuadratureState cfg cap) : QuadratureStep cfg → QuadratureState cfg cap
  | .read index pinAState pinBState => s.handleRead index pinAState pinBState
  | .dequeue => s.dequeueEvent

def runQuadrature (s : QuadratureState cfg cap) (steps : List (QuadratureStep cfg)) : QuadratureState cfg cap :=
  steps.foldl QuadratureStep.exec s

def samplesOf (i : Fin cfg.thisCount) : List (QuadratureStep cfg) → List UInt8
  | [] => []
  | .read index pinAState pinBState :: steps =>
    if index = i then pinState pinAState pinBState :: samplesOf i steps else samplesOf i steps
  | .dequeue :: steps => samplesOf i steps

/-- The counter-clockwise events of an encoder less its clockwise ones. -/
def netEvents (i : Fin cfg.thisCount) (events : List EncoderEvent) : Int :=
  events.count ⟨cfg.index i, cfg.counterClockwise⟩ - events.count ⟨cfg.index i, cfg.clockwise⟩

variable (s : QuadratureState cfg cap) (i : Fin cfg.thisCount)

theorem index_toNat : (cfg.index i).toNat = i + cfg.thisHand := by
  have hfits := cfg.fits
  have hi := i.isLt
  rw [EncoderConfig.index, UInt8.toNat_add, UInt8.toNat_ofNat_of_lt' (by change i.val < 256; omega),
    UInt8.toNat_ofNat_of_lt' (by change cfg.thisHand < 256; omega)]
  exact Nat.mod_eq_of_lt (by omega)

theorem index_mod : cfg.index i % 128 = cfg.index i := by
  have hfits := cfg.fits
  have hi := i.isLt
  apply UInt8.toNat_inj.mp
  rw [UInt8.toNat_mod, index_toNat]
  exact Nat.mod_eq_of_lt (by change i.val + cfg.thisHand < 128; omega)

theorem index_injective : Function.Injective cfg.index := by
  intro i j h
  have hnat := congrArg UInt8.toNat h
  rw [index_toNat, index_toNat] at hnat
  exact Fin.ext (by omega)

theorem netEvents_append (events events' : List EncoderEvent) :
    netEvents i (events ++ events') = netEvents i events + netEvents i events' := by
  simp only [netEvents, List.count_append]
  push_cast
  ring

theorem netEvents_of_ne {i j : Fin cfg.thisCount} (h : j ≠ i) (clockwise : Bool) :
    netEvents j [⟨cfg.index i, clockwise⟩] = 0 := by
  have hne : cfg.index i ≠ cfg.index j := fun heq => h (index_injective heq).symm
  simp [netEvents, hne]

theorem netEvents_counterClockwise : netEvents i [⟨cfg.index i, cfg.counterClockwise⟩] = 1 := by
  simp [netEvents, EncoderConfig.counterClockwise, EncoderConfig.clockwise]

theorem netEvents_clockwise : netEvents i [⟨cfg.index i, cfg.clockwise⟩] = -1 := by
  simp [netEvents, EncoderConfig.counterClockwise, EncoderConfig.clockwise]

theorem decoded (state : UInt8) (pinAState pinBState : Bool) :
    encoderLUT.getD (((state <<< 2) ||| pinState pinAState pinBState) &&& 0xF).toNat 0 =
      grayStep (state &&& 0x3) (pinState pinAState pinBState) := by
  obtain ⟨⟨state⟩⟩ := state
  revert state pinAState pinBState
  decide +kernel

theorem shifted_low (state : UInt8) (pinAState pinBState : Bool) :
    ((state <<< 2) ||| pinState pinAState pinBState) &&& 0x3 = pinState pinAState pinBState := by
  obtain ⟨⟨state⟩⟩ := state
  revert state pinAState pinBState
  decide +kernel

theorem grayStep_bounds (prev next : UInt8) : -1 ≤ grayStep prev next ∧ grayStep prev next ≤ 1 := by
  rw [grayStep]
  split <;> decide

theorem grayStep_self (bits : UInt8) : grayStep bits bits = 0 := by
  rw [grayStep, sub_self]
  rfl

theorem toInt8_eq {v : Int} (hlow : -128 ≤ v) (hup : v < 128) : toInt8 v = v := by
  rw [toInt8]
  omega

/-- The events that pulses make, the counter-clockwise one counted as one. -/
def emitted (resolution pulses : Int) : Int :=
  if pulses ≥ resolution then 1 else if pulses ≤ -resolution then -1 else 0

theorem emitted_rest (resolution pulses : Int) (hpos : 1 ≤ resolution) (hle : resolution ≤ 127)
    (hlow : -resolution ≤ pulses) (hup : pulses ≤ resolution) :
    emitted resolution pulses * resolution + toInt8 (pulses.tmod resolution) = pulses ∧
      |toInt8 (pulses.tmod resolution)| < resolution := by
  rw [emitted]
  by_cases hccw : pulses ≥ resolution
  · obtain rfl : pulses = resolution := by omega
    rw [if_pos hccw, Int.tmod_self]
    exact ⟨by rw [toInt8]; omega, by rw [abs_lt, toInt8]; omega⟩
  · rw [if_neg hccw]
    by_cases hcw : pulses ≤ -resolution
    · obtain rfl : pulses = -resolution := by omega
      rw [if_pos hcw, Int.neg_tmod, Int.tmod_self]
      exact ⟨by rw [toInt8]; omega, by rw [abs_lt, toInt8]; omega⟩
    · have hmod : pulses.tmod resolution = pulses := by
        rcases Int.le_total 0 pulses with hpulses | hpulses
        · exact Int.tmod_eq_of_lt hpulses (by omega)
        · rw [← Int.neg_neg pulses, Int.neg_tmod, Int.tmod_eq_of_lt (by omega) (by omega)]
      rw [if_neg hcw, hmod, toInt8_eq (by omega) (by omega), zero_mul, zero_add, abs_lt]
      exact ⟨rfl, by omega, by omega⟩

namespace QuadratureState

variable (s : QuadratureState cfg cap) (i : Fin cfg.thisCount)

theorem queueEvent_frame (index : UInt8) (clockwise : Bool) :
    (s.queueEvent index clockwise).encoderState = s.encoderState ∧
      (s.queueEvent index clockwise).encoderPulses = s.encoderPulses ∧
      (s.queueEvent index clockwise).dequeued = s.dequeued := by
  rw [queueEvent]
  split <;> exact ⟨rfl, rfl, rfl⟩

theorem queueEvent_cases (index : UInt8) (clockwise : Bool) :
    ((s.queueEvent index clockwise).queued = s.queued ++ [⟨index % 128, clockwise⟩] ∧
        (s.queueEvent index clockwise).dropped = s.dropped ∧
        (s.queueEvent index clockwise).events.ring.contents = s.events.ring.contents ++ [⟨index % 128, clockwise⟩]) ∨
      ((s.queueEvent index clockwise).queued = s.queued ∧
        (s.queueEvent index clockwise).dropped = s.dropped + 1 ∧
        (s.queueEvent index clockwise).events = s.events) := by
  rw [queueEvent, encoderQueueEventAdvanced]
  by_cases hfull : s.events.ring.isFull = true
  · rw [if_pos hfull]
    exact .inr ⟨rfl, rfl, rfl⟩
  · rw [if_neg hfull]
    exact .inl ⟨rfl, rfl, Ring.contents_push _ _ (Bool.eq_false_iff.mpr hfull)⟩

/-- The events that came into the queue are those that have been taken and those that are still there. -/
def Queues (s : QuadratureState cfg cap) : Prop := s.queued = s.dequeued ++ s.events.ring.contents

theorem Queues.queueEvent {s : QuadratureState cfg cap} (h : s.Queues) (index : UInt8) (clockwise : Bool) :
    (s.queueEvent index clockwise).Queues := by
  obtain ⟨-, -, hdequeued⟩ := s.queueEvent_frame index clockwise
  rcases s.queueEvent_cases index clockwise with ⟨hqueued, -, hcontents⟩ | ⟨hqueued, -, hevents⟩
  · rw [Queues, hqueued, hdequeued, hcontents, ← List.append_assoc, ← h]
  · rw [Queues, hqueued, hdequeued, hevents, h]

theorem Queues.dequeueEvent {s : QuadratureState cfg cap} (h : s.Queues) : s.dequeueEvent.Queues := by
  rw [QuadratureState.dequeueEvent, encoderDequeueEventAdvanced]
  by_cases hempty : s.events.ring.isEmpty = true
  · rw [if_pos hempty]
    exact h
  · rw [if_neg hempty]
    rw [Queues, Ring.contents_pop _ (Bool.eq_false_iff.mpr hempty)] at h
    rw [Queues, List.append_assoc]
    exact h

structure Emits (s s' : QuadratureState cfg cap) (i : Fin cfg.thisCount) (net : Int) : Prop where
  state : s'.encoderState = s.encoderState
  pulses : s'.encoderPulses = s.encoderPulses
  queues : s.Queues → s'.Queues
  dropped : s.dropped ≤ s'.dropped
  own : s'.dropped = s.dropped → netEvents i s'.queued = netEvents i s.queued + net
  other : ∀ j, j ≠ i → s'.dropped = s.dropped → netEvents j s'.queued = netEvents j s.queued

theorem emits_none : Emits s s i 0 :=
  ⟨rfl, rfl, id, Nat.le_refl _, fun _ => (add_zero _).symm, fun _ _ _ => rfl⟩

theorem emits_queueEvent {clockwise : Bool} {net : Int} (hnet : netEvents i [⟨cfg.index i, clockwise⟩] = net) :
    Emits s (s.queueEvent (cfg.index i) clockwise) i net := by
  obtain ⟨hstate, hpulses, -⟩ := s.queueEvent_frame (cfg.index i) clockwise
  have hcases := s.queueEvent_cases (cfg.index i) clockwise
  rw [index_mod] at hcases
  refine ⟨hstate, hpulses, fun h => h.queueEvent _ _, ?_, fun hkept => ?_, fun j hj hkept => ?_⟩
  · rcases hcases with ⟨-, hdropped, -⟩ | ⟨-, hdropped, -⟩ <;> omega
  · rcases hcases with ⟨hqueued, -⟩ | ⟨-, hdropped, -⟩
    · rw [hqueued, netEvents_append, hnet]
    · omega
  · rcases hcases with ⟨hqueued, -⟩ | ⟨-, hdropped, -⟩
    · rw [hqueued, netEvents_append, netEvents_of_ne hj, add_zero]
    · omega

theorem emits_queueEvents (pulses : Int) :
    Emits s (s.queueEvents i pulses) i (emitted (cfg.resolution i) pulses) := by
  have hpos : 1 ≤ (cfg.resolution i : Int) := by exact_mod_cast cfg.resolution_pos (cfg.index i)
  simp only [queueEvents, emitted]
  by_cases hccw : pulses ≥ cfg.resolution i
  · rw [if_pos hccw, if_pos hccw, if_neg (by omega)]
    exact emits_queueEvent s i (netEvents_counterClockwise i)
  · rw [if_neg hccw, if_neg hccw]
    split
    · exact emits_queueEvent s i (netEvents_clockwise i)
    · exact emits_none s i

end QuadratureState

open QuadratureState

/-- What a step does for an encoder: it adds the sum of its samples to the pulses, of which the events are a part. -/
structure Counts (s s' : QuadratureState cfg cap) (i : Fin cfg.thisCount) (samples : List UInt8) : Prop where
  dropped : s.dropped ≤ s'.dropped
  state : s'.encoderState i &&& 0x3 = samples.getLastD (s.encoderState i &&& 0x3)
  rest : |s'.encoderPulses i| < cfg.resolution i
  sum : s'.dropped = s.dropped →
    netEvents i s'.queued * cfg.resolution i + s'.encoderPulses i =
      netEvents i s.queued * cfg.resolution i + s.encoderPulses i + graySum (s.encoderState i &&& 0x3) samples

theorem counts_none {s s' : QuadratureState cfg cap} {i : Fin cfg.thisCount}
    (hstate : s'.encoderState i = s.encoderState i) (hpulses : s'.encoderPulses i = s.encoderPulses i) (hdropped : s.dropped ≤ s'.dropped)
    (hqueued : s'.dropped = s.dropped → netEvents i s'.queued = netEvents i s.queued)
    (hrest : |s.encoderPulses i| < cfg.resolution i) : Counts s s' i [] := by
  refine ⟨hdropped, congrArg (· &&& 0x3) hstate, by rwa [hpulses], fun hkept => ?_⟩
  rw [hqueued hkept, hpulses, graySum, add_zero]

theorem Counts.trans {s s' s'' : QuadratureState cfg cap} {i : Fin cfg.thisCount} {samples samples' : List UInt8}
    (h : Counts s s' i samples) (h' : Counts s' s'' i samples') : Counts s s'' i (samples ++ samples') := by
  have hle := h.dropped
  have hle' := h'.dropped
  refine ⟨by omega, ?_, h'.rest, fun hkept => ?_⟩
  · rw [h'.state, h.state, getLastD_append]
  · rw [h'.sum (by omega), h.sum (by omega), h.state, graySum_append]
    ring

theorem shiftIn_self (state : UInt8) :
    (s.shiftIn i state).encoderState i = (s.encoderState i <<< 2) ||| state := Function.update_self _ _ _

theorem change_counts (pinAState pinBState : Bool) (hrest : |s.encoderPulses i| < cfg.resolution i) :
    Counts s ((s.shiftIn i (pinState pinAState pinBState)).handleStateChange i
      ((s.encoderState i <<< 2) ||| pinState pinAState pinBState)) i [pinState pinAState pinBState] := by
  have hpos : 1 ≤ (cfg.resolution i : Int) := by exact_mod_cast cfg.resolution_pos (cfg.index i)
  have hle : (cfg.resolution i : Int) ≤ 127 := by exact_mod_cast cfg.resolution_le (cfg.index i)
  obtain ⟨hlow, hup⟩ := abs_lt.mp hrest
  obtain ⟨hback, hforth⟩ := grayStep_bounds (s.encoderState i &&& 0x3) (pinState pinAState pinBState)
  have hold : (s.shiftIn i (pinState pinAState pinBState)).encoderPulses i = s.encoderPulses i := rfl
  rw [handleStateChange, decoded, hold]
  generalize hstep : grayStep (s.encoderState i &&& 0x3) (pinState pinAState pinBState) = step at hback hforth ⊢
  rw [toInt8_eq (v := s.encoderPulses i + step) (by omega) (by omega)]
  obtain ⟨hsum, hsmall⟩ := emitted_rest (cfg.resolution i) (s.encoderPulses i + step) hpos hle (by omega) (by omega)
  have hemits := emits_queueEvents (s.shiftIn i (pinState pinAState pinBState)) i (s.encoderPulses i + step)
  refine ⟨hemits.dropped, ?_, ?_, fun hkept => ?_⟩
  · simp only [hemits.state, shiftIn_self]
    exact shifted_low _ _ _
  · simpa only [Function.update_self] using hsmall
  · have hown := hemits.own hkept
    simp only [Function.update_self, graySum, hstep, add_zero]
    rw [hown]
    have hqueued : (s.shiftIn i (pinState pinAState pinBState)).queued = s.queued := rfl
    rw [hqueued]
    linarith

theorem read_counts (pinAState pinBState : Bool) (hrest : |s.encoderPulses i| < cfg.resolution i) :
    Counts s (s.handleRead i pinAState pinBState) i [pinState pinAState pinBState] := by
  rw [handleRead]
  simp only [shiftIn_self]
  by_cases hsame : s.encoderState i &&& 0x3 = pinState pinAState pinBState
  · rw [if_neg (not_not_intro hsame)]
    refine ⟨Nat.le_refl _, hsame, hrest, fun _ => ?_⟩
    rw [graySum, graySum, hsame, grayStep_self, add_zero, add_zero]
  · rw [if_pos hsame]
    exact change_counts s i pinAState pinBState hrest

theorem read_counts_other {i j : Fin cfg.thisCount} (hj : j ≠ i) (pinAState pinBState : Bool)
    (hrest : |s.encoderPulses j| < cfg.resolution j) : Counts s (s.handleRead i pinAState pinBState) j [] := by
  rw [handleRead]
  simp only
  split
  · rw [handleStateChange]
    have hemits := emits_queueEvents (s.shiftIn i (pinState pinAState pinBState)) i
      (toInt8 ((s.shiftIn i (pinState pinAState pinBState)).encoderPulses i +
        encoderLUT.getD ((s.shiftIn i (pinState pinAState pinBState)).encoderState i &&& 0xF).toNat 0))
    refine counts_none ?_ (Function.update_of_ne hj _ _) hemits.dropped (fun hkept => hemits.other j hj hkept) hrest
    simp only [hemits.state]
    exact Function.update_of_ne hj _ _
  · exact counts_none rfl rfl (Nat.le_refl _) (fun _ => rfl) hrest

theorem dequeue_counts (hrest : |s.encoderPulses i| < cfg.resolution i) : Counts s s.dequeueEvent i [] := by
  rw [dequeueEvent]
  split <;> exact counts_none rfl rfl (Nat.le_refl _) (fun _ => rfl) hrest

theorem exec_counts (step : QuadratureStep cfg) (i : Fin cfg.thisCount)
    (hrest : |s.encoderPulses i| < cfg.resolution i) : Counts s (step.exec s) i (samplesOf i [step]) := by
  cases step with
  | dequeue => exact dequeue_counts s i hrest
  | read index pinAState pinBState =>
    rw [samplesOf]
    by_cases hindex : index = i
    · subst hindex
      rw [if_pos rfl]
      exact read_counts s index pinAState pinBState hrest
    · rw [if_neg hindex]
      exact read_counts_other s (Ne.symm hindex) pinAState pinBState hrest

theorem samplesOf_cons (step : QuadratureStep cfg) (steps : List (QuadratureStep cfg)) :
    samplesOf i (step :: steps) = samplesOf i [step] ++ samplesOf i steps := by
  cases step with
  | dequeue => rfl
  | read index pinAState pinBState =>
    rw [samplesOf, samplesOf]
    split <;> rfl

theorem run_counts (steps : List (QuadratureStep cfg)) (i : Fin cfg.thisCount) : ∀ s : QuadratureState cfg cap,
    |s.encoderPulses i| < cfg.resolution i → Counts s (runQuadrature s steps) i (samplesOf i steps) := by
  induction steps with
  | nil => exact fun s hrest => counts_none rfl rfl (Nat.le_refl _) (fun _ => rfl) hrest
  | cons step steps ih =>
    intro s hrest
    have hstep := exec_counts s step i hrest
    rw [samplesOf_cons]
    exact hstep.trans (ih _ hstep.rest)

theorem exec_queues {s : QuadratureState cfg cap} (h : s.Queues) (step : QuadratureStep cfg) :
    (step.exec s).Queues := by
  cases step with
  | dequeue => exact h.dequeueEvent
  | read index pinAState pinBState =>
    rw [QuadratureStep.exec, handleRead]
    simp only
    split
    · exact (emits_queueEvents _ index _).queues h
    · exact h

theorem run_queues (steps : List (QuadratureStep cfg)) : ∀ {s : QuadratureState cfg cap}, s.Queues →
    (runQuadrature s steps).Queues := by
  induction steps with
  | nil => exact id
  | cons step steps ih => exact fun h => ih (exec_queues h step)

/-- Behind `encoder_init`; `encoder_state` is what the pins were, or 0. -/
def QuadratureState.start (cfg : EncoderConfig) (cap : Nat) (hcap : 0 < cap) (pins : Fin cfg.thisCount → UInt8) :
    QuadratureState cfg cap :=
  { encoderState := pins
    encoderPulses := fun _ => 0
    events := .zero hcap
    queued := []
    dequeued := []
    dropped := 0 }

/-- Where no event was dropped, the events of each encoder and its pulses are the sum of the steps of its samples. These
are how far the shaft has come if it never went on by more than one position from sample to sample. -/
theorem encoder_counts (cfg : EncoderConfig) (cap : Nat) (hcap : 0 < cap) (pins : Fin cfg.thisCount → UInt8)
    (steps : List (QuadratureStep cfg)) (s : QuadratureState cfg cap)
    (hrun : runQuadrature (start cfg cap hcap pins) steps = s) (hdropped : s.dropped = 0) :
    s.queued = s.dequeued ++ s.events.ring.contents ∧
      ∀ i, netEvents i s.queued * cfg.resolution i + s.encoderPulses i = graySum (pins i &&& 0x3) (samplesOf i steps) ∧
        |s.encoderPulses i| < cfg.resolution i ∧
        ∀ (p : Int) (path : List Int), (p :: path).IsChain (fun a b => |b - a| ≤ 1) → pins i &&& 0x3 = grayCode p →
          samplesOf i steps = path.map grayCode →
            graySum (pins i &&& 0x3) (samplesOf i steps) = path.getLastD p - p := by
  subst hrun
  refine ⟨run_queues steps rfl, fun i => ?_⟩
  have hpos := cfg.resolution_pos (cfg.index i)
  have hcounts := run_counts steps i (start cfg cap hcap pins) (by
    rw [start, abs_zero]
    exact_mod_cast hpos)
  refine ⟨?_, hcounts.rest, fun p path hchain hp hsamples => ?_⟩
  · have hsum := hcounts.sum hdropped
    rw [hsum]
    simp [start, netEvents]
  · rw [hp, hsamples]
    exact graySum_path path p hchain

end Run

def twoEncoders : EncoderConfig where
  thisCount := 2
  thisHand := 0
  fits := by decide
  encoderResolutions _ := 2
  resolution_pos _ := by decide
  resolution_le _ := by decide
  directionFlip := false

def firstEncoder : Fin twoEncoders.thisCount := ⟨0, by decide⟩

def secondEncoder : Fin twoEncoders.thisCount := ⟨1, by decide⟩

theorem four_events_pos : 0 < 4 := by decide

/-- Three positions forth at the one while the other goes back and forth. -/
def threeForth : QuadratureState twoEncoders 4 :=
  runQuadrature (QuadratureState.start twoEncoders 4 four_events_pos fun _ => 0)
    [.read firstEncoder false true, .read secondEncoder true false, .read firstEncoder true true, .dequeue,
      .read secondEncoder false false, .read firstEncoder true false]

theorem encoder_counts_three :
    netEvents firstEncoder threeForth.queued * 2 + threeForth.encoderPulses firstEncoder = 3 := by
  obtain ⟨-, hcounts⟩ := encoder_counts twoEncoders 4 four_events_pos (fun _ => 0)
    [.read firstEncoder false true, .read secondEncoder true false, .read firstEncoder true true, .dequeue,
      .read secondEncoder false false, .read firstEncoder true false] threeForth rfl rfl
  obtain ⟨hsum, -, hpath⟩ := hcounts firstEncoder
  exact hsum.trans (hpath 0 [1, 2, 3] (by decide) rfl rfl)

end Scan
end VialQmk
