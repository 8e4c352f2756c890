import VialQmk.Lib.Recent
import Mathlib.Algebra.Group.Nat.Defs

/-!
# Audio.ToneStack

The tones of `audio.c`, after `audio_init`: the functions that play and stop them, and `audio_update_state` with the
melody and the tone multiplexing. A call reads the timer as one value. A division by zero has no result.
-/

namespace VialQmk
namespace Audio

open Lib

/-- The macros of `audio.h`, `note_tempo`, which is at least 10, and the pitches: their absolute value, `-1.0f` for a slot
without a tone, and `0.0f`. -/
structure AudioConfig (Pitch : Type) where
  norm : Pitch → Pitch
  emptyPitch : Pitch
  restPitch : Pitch
  stackSize : Nat
  multiplexing : Bool
  maxSimultaneousTones : Nat
  rateDefault : UInt16
  noteTempo : UInt8
  norm_norm : ∀ p, norm (norm p) = norm p
  norm_ne : ∀ p, norm p ≠ emptyPitch
  stackSize_pos : 0 < stackSize
  noteTempo_ge : 10 ≤ noteTempo.toNat

structure Tone (Pitch : Type) where
  timeStarted : UInt16
  pitch : Pitch
  duration : UInt16
deriving DecidableEq

structure AudioState (Pitch : Type) where
  activeTones : Nat
  tones : Mem (Tone Pitch)
  playingMelody : Bool
  playingNote : Bool
  stateChanged : Bool
  notes : Nat → Pitch × UInt16
  notesCount : UInt16
  notesRepeat : Bool
  melodyCurrentNoteDuration : UInt16
  currentNote : UInt16
  noteResting : Bool
  lastTimestamp : UInt16
  toneMultiplexingRate : UInt16
  toneMultiplexingIndexShift : Nat
  driverStopped : Bool
  enabled : Bool

variable {Pitch : Type} [DecidableEq Pitch] (cfg : AudioConfig Pitch)

def AudioConfig.emptyTone : Tone Pitch := ⟨0, cfg.emptyPitch, 0⟩

def AudioConfig.durationToMs (durationBpm : UInt16) : UInt16 :=
  (durationBpm.toNat * 1875 / (cfg.noteTempo.toNat * 2)).toUInt16

/-- `n` turns of the loop that moves tones down, from slot `i` on. -/
def shiftDown (m : Mem (Tone Pitch)) (i : Nat) : Nat → Mem (Tone Pitch)
  | 0 => m
  | n + 1 => shiftDown (Function.update m i (m (i + 1))) (i + 1) n

/-- `n` turns of the loop that takes a tone to the top, from slot `i` on. -/
def moveUp (tone : Tone Pitch) (m : Mem (Tone Pitch)) (i : Nat) : Nat → Mem (Tone Pitch)
  | 0 => m
  | n + 1 => moveUp tone (Function.update (Function.update m i (m (i + 1))) (i + 1) tone) (i + 1) n

def findPitch (m : Mem (Tone Pitch)) (pitch : Pitch) : Nat → Option Nat
  | 0 => none
  | n + 1 => if (m n).pitch = pitch then some n else findPitch m pitch n

namespace AudioState

variable (s : AudioState Pitch) (now : UInt16)

/-- What `audio_init` leaves where nothing has been played, with any settings. -/
def afterInit : AudioState Pitch :=
  { s with
    activeTones := 0
    playingMelody := false
    playingNote := false
    tones := s.tones.writeBlock 0 (List.replicate cfg.stackSize cfg.emptyTone)
    driverStopped := true }

def audioStopAll : AudioState Pitch :=
  if s.driverStopped then s
  else
    { s with
      activeTones := 0
      playingMelody := false
      playingNote := false
      melodyCurrentNoteDuration := 0
      tones := s.tones.writeBlock 0 (List.replicate cfg.stackSize cfg.emptyTone)
      driverStopped := true }

def audioStopTone (pitch : Pitch) : AudioState Pitch :=
  let pitch := cfg.norm pitch
  if s.playingNote then
    match findPitch s.tones pitch cfg.stackSize with
    | none => s
    | some i =>
      let tones := shiftDown s.tones i (cfg.stackSize - 1 - i)
      let activeTones := s.activeTones - 1
      { s with
        tones := Function.update tones (cfg.stackSize - 1) cfg.emptyTone
        stateChanged := true
        activeTones := activeTones
        toneMultiplexingIndexShift :=
          if cfg.multiplexing ∧ activeTones ≤ s.toneMultiplexingIndexShift then 0 else s.toneMultiplexingIndexShift
        driverStopped := s.driverStopped || decide (activeTones = 0)
        playingNote := decide (activeTones ≠ 0) }
  else s

def pushTone (tone : Tone Pitch) : AudioState Pitch :=
  let activeTones := (s.activeTones + 1) % 2 ^ 8
  let full : Bool := cfg.stackSize < activeTones
  let activeTones := if full then cfg.stackSize else activeTones
  let tones := if full then shiftDown s.tones 0 (activeTones - 1) else s.tones
  { s with
    activeTones := activeTones
    stateChanged := true
    playingNote := true
    tones := Function.update tones (activeTones - 1) tone
    driverStopped := false }

def audioPlayNote (pitch : Pitch) (duration : UInt16) : AudioState Pitch :=
  if s.enabled then
    let tone : Tone Pitch := ⟨now, cfg.norm pitch, duration⟩
    match findPitch s.tones tone.pitch s.activeTones with
    | some i => { s with tones := moveUp tone s.tones i (s.activeTones - 1 - i) }
    | none => s.pushTone cfg tone
  else s

def audioPlayTone (pitch : Pitch) : AudioState Pitch := s.audioPlayNote cfg now pitch 0xffff

def audioPlayMelody (notes : Nat → Pitch × UInt16) (notesCount : UInt16) (notesRepeat : Bool) : AudioState Pitch :=
  if ¬ s.enabled then s.audioStopAll cfg
  else if notesCount = 0 then s
  else
    let s := if s.playingNote then s.audioStopAll cfg else s
    let s := { s with
      playingMelody := true
      noteResting := false
      notes := notes
      notesCount := notesCount
      notesRepeat := notesRepeat
      currentNote := 0 }
    let duration := cfg.durationToMs (notes 0).2
    { s.audioPlayNote cfg now (notes 0).1 duration with
      lastTimestamp := now
      melodyCurrentNoteDuration := duration }

/-- The loop over missed notes: what is left of the delay, the note, and its duration. -/
def skipMissed (notes : Nat → Pitch × UInt16) (notesCount delta currentNote : UInt16) : UInt16 × UInt16 × UInt16 :=
  let duration := cfg.durationToMs (notes currentNote.toNat).2
  if duration < delta ∧ currentNote.toNat < notesCount.toNat - 1 then
    skipMissed notes notesCount (delta - duration) (currentNote + 1)
  else (delta, currentNote, duration)
termination_by notesCount.toNat - currentNote.toNat
decreasing_by
  rename_i h
  have hlt := notesCount.toNat_lt
  have hsucc : (currentNote + 1).toNat = currentNote.toNat + 1 := by
    rw [UInt16.toNat_add]
    exact Nat.mod_eq_of_lt (by simp; omega)
  omega

def melodyDue : Bool := s.playingMelody && decide (s.melodyCurrentNoteDuration ≤ now - s.lastTimestamp)

def restNote : AudioState Pitch × Pitch × UInt16 :=
  let duration := cfg.durationToMs 2
  ({ s with lastTimestamp := now, noteResting := true, melodyCurrentNoteDuration := duration }, cfg.restPitch, duration)

/-- The note of the melody that is to be played, `delta` after its begin. -/
def startNote (delta currentNote : UInt16) : AudioState Pitch × Pitch × UInt16 :=
  let (delta, currentNote, duration) := skipMissed cfg s.notes s.notesCount delta currentNote
  let duration := if delta < duration then duration - delta else 1
  ({ s with
    lastTimestamp := now
    noteResting := false
    currentNote := currentNote
    melodyCurrentNoteDuration := duration }, (s.notes currentNote.toNat).1, duration)

/-- The end of a note of the melody: what is played next, or nothing behind the last note. -/
def nextNote : AudioState Pitch × Option (Pitch × UInt16) :=
  let delta := now - s.lastTimestamp - s.melodyCurrentNoteDuration
  let previousNote := s.currentNote
  let currentNote := previousNote + 1
  if s.notesCount ≤ currentNote ∧ ¬ s.notesRepeat then
    ({ s with lastTimestamp := now, currentNote := currentNote }, none)
  else
    let currentNote := if s.notesCount ≤ currentNote then 0 else currentNote
    let (s, note) :=
      if ¬ s.noteResting ∧ (s.notes previousNote.toNat).1 = (s.notes currentNote.toNat).1 then s.restNote cfg now
      else s.startNote cfg now delta currentNote
    (s, some note)

/-- `tone_multiplexing_index_shift`, where neither the rate nor the number of tones is zero. -/
def multiplex : Option (AudioState Pitch) :=
  if cfg.multiplexing then
    let tones := min cfg.maxSimultaneousTones s.activeTones
    if s.toneMultiplexingRate = 0 ∨ tones = 0 then none
    else some { s with toneMultiplexingIndexShift := now.toNat / s.toneMultiplexingRate.toNat % tones }
  else some s

end AudioState

def Tone.Expired (now : UInt16) (tone : Tone Pitch) : Prop :=
  tone.duration ≠ 0xffff ∧ tone.duration ≠ 0 ∧ tone.duration ≤ now - tone.timeStarted
deriving Decidable

namespace AudioState

variable (s : AudioState Pitch) (now : UInt16)

/-- The loop that stops tones, from slot `i` on, in at most `n` turns. -/
def expireLoop : Nat → Nat → AudioState Pitch → AudioState Pitch
  | 0, _, s => s
  | n + 1, i, s =>
    if i < s.activeTones then
      expireLoop n (i + 1) (if (s.tones i).Expired now then s.audioStopTone cfg (s.tones i).pitch else s)
    else s

/-- The result is `goto_next_note`, or true where the tones have changed. -/
def reportUpdate (gotoNextNote : Bool) : Bool × AudioState Pitch :=
  if s.stateChanged then (true, { s with stateChanged := false }) else (gotoNextNote, s)

/-- `audio_update_state` behind the melody. `effects` is `vibrato || glissando`. -/
def updateNotes (gotoNextNote effects : Bool) : Option (Bool × AudioState Pitch) :=
  if s.playingNote then
    (s.multiplex cfg now).map fun s =>
      (expireLoop cfg now s.activeTones 0 s).reportUpdate (gotoNextNote || cfg.multiplexing || effects)
  else some (s.reportUpdate gotoNextNote)

def audioUpdateState (effects : Bool) : Option (Bool × AudioState Pitch) :=
  if ¬ s.playingNote ∧ ¬ s.playingMelody then some (false, s)
  else if s.melodyDue now then
    match s.nextNote cfg now with
    | (s, none) => some (false, s.audioStopAll cfg)
    | (s, some (pitch, duration)) => (s.audioPlayNote cfg now pitch duration).updateNotes cfg now true effects
  else s.updateNotes cfg now false effects

def audioSetToneMultiplexingRate (rate : UInt16) : AudioState Pitch := { s with toneMultiplexingRate := rate }

def audioEnableToneMultiplexing : AudioState Pitch := { s with toneMultiplexingRate := cfg.rateDefault }

def audioDisableToneMultiplexing : AudioState Pitch := { s with toneMultiplexingRate := 0 }

def audioIncreaseToneMultiplexingRate (change : UInt16) : AudioState Pitch :=
  if s.toneMultiplexingRate < 0xffff - change then
    { s with toneMultiplexingRate := s.toneMultiplexingRate + change }
  else s

def audioDecreaseToneMultiplexingRate (change : UInt16) : AudioState Pitch :=
  if change ≤ s.toneMultiplexingRate then { s with toneMultiplexingRate := s.toneMultiplexingRate - change } else s

end AudioState

inductive AudioCall (Pitch : Type) where
  | playNote (pitch : Pitch) (duration : UInt16)
  | playTone (pitch : Pitch)
  | stopTone (pitch : Pitch)
  | stopAll
  | playMelody (notes : Nat → Pitch × UInt16) (notesCount : UInt16) (notesRepeat : Bool)
  | updateState (effects : Bool)
  | setRate (rate : UInt16)
  | enableMultiplexing
  | disableMultiplexing
  | increaseRate (change : UInt16)
  | decreaseRate (change : UInt16)

def AudioState.call (s : AudioState Pitch) (now : UInt16) : AudioCall Pitch → Option (AudioState Pitch)
  | .playNote pitch duration => some (s.audioPlayNote cfg now pitch duration)
  | .playTone pitch => some (s.audioPlayTone cfg now pitch)
  | .stopTone pitch => some (s.audioStopTone cfg pitch)
  | .stopAll => some (s.audioStopAll cfg)
  | .playMelody notes notesCount notesRepeat => some (s.audioPlayMelody cfg now notes notesCount notesRepeat)
  | .updateState effects => (s.audioUpdateState cfg now effects).map Prod.snd
  | .setRate rate => some (s.audioSetToneMultiplexingRate rate)
  | .enableMultiplexing => some (s.audioEnableToneMultiplexing cfg)
  | .disableMultiplexing => some s.audioDisableToneMultiplexing
  | .increaseRate change => some (s.audioIncreaseToneMultiplexingRate change)
  | .decreaseRate change => some (s.audioDecreaseToneMultiplexingRate change)

end Audio
end VialQmk
