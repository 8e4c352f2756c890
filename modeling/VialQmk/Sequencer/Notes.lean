import Mathlib.Data.BitVec
import VialQmk.Lib.Paired

/-!
# Sequencer.Notes

The step sequencer (`sequencer.c`) and the MIDI notes that it sends.

* `Sequencer.task`: one call of `sequencer_task`, which attacks or releases one track at most.
* `calm_run_balanced`: where each release finds the note that was attacked, every note that is sent on is sent off.
-/

namespace VialQmk
namespace Sequencer

open Lib

/-- The macros of `sequencer.h`. -/
structure SequencerSize where
  steps : Nat
  tracks : Nat
  trackThrottle : Nat
  phaseReleaseTimeout : Nat
  steps_le : steps ≤ 256
  tracks_pos : 0 < tracks
  tracks_le : tracks ≤ 8

/-- The fields of `midi_config` that a note depends on. -/
structure MidiConfig where
  octave : BitVec 4
  transpose : BitVec 4

def midiToneMin : Int := 0x7103

def midiComputeNote (midi : MidiConfig) (keycode : UInt16) : BitVec 8 :=
  BitVec.ofInt 8 (12 * midi.octave.toNat + (keycode.toNat - midiToneMin) + midi.transpose.toInt)

/-- The data byte of `midi_send_noteon` and `midi_send_noteoff`. -/
def midiSent (note : BitVec 8) : BitVec 8 := note &&& 0x7F#8

inductive SequencerPhase where
  | attack
  | release
  | pause
deriving DecidableEq, Repr

/-- `sequencer_config` and `sequencer_internal_state`, with the notes sent on and off, each under its track. -/
structure SequencerState where
  enabled : Bool
  steps : Nat → BitVec 8
  trackNotes : Nat → UInt16
  tempo : UInt8
  resolution : Nat
  activeTracks : BitVec 8
  currentTrack : Nat
  currentStep : Nat
  timer : UInt16
  phase : SequencerPhase
  out : List (Edge Nat (BitVec 8))

def sqRes4 : Nat := 2

def sequencerResolutions : Nat := 9

def initialState : SequencerState where
  enabled := false
  steps _ := 0
  trackNotes _ := 0
  tempo := 60
  resolution := sqRes4
  activeTracks := 0
  currentTrack := 0
  currentStep := 0
  timer := 0
  phase := .attack
  out := []

def getBeatDuration (tempo : UInt8) : Nat := 60000 / (if tempo = 0 then 60 else tempo.toNat)

def getStepDuration (tempo : UInt8) (resolution : Nat) : Nat :=
  let binarySteps := (2 <<< (resolution / 2)) % 256
  let binaryStepDuration := getBeatDuration tempo * 4 / binarySteps % 65536
  if resolution % 2 = 0 then binaryStepDuration else 2 * binaryStepDuration / 3

namespace SequencerState

variable (p : SequencerSize) (midi : MidiConfig) (s : SequencerState)

def on (now : UInt16) : SequencerState :=
  { s with enabled := true, currentTrack := 0, currentStep := 0, timer := now, phase := .attack }

def off : SequencerState := { s with enabled := false, currentStep := 0 }

def toggle (now : UInt16) : SequencerState := if s.enabled then s.off else s.on now

def setTrackNotes (trackNotes : Nat → UInt16) : SequencerState :=
  { s with trackNotes := fun i => if i < p.tracks then trackNotes i else s.trackNotes i }

def isTrackActive (track : Nat) : Bool := s.activeTracks.getLsbD track

def setTrackActivation (track : Nat) (value : Bool) : SequencerState :=
  if value then { s with activeTracks := s.activeTracks ||| 1#8 <<< track }
  else { s with activeTracks := s.activeTracks &&& ~~~(1#8 <<< track) }

def toggleTrackActivation (track : Nat) : SequencerState := s.setTrackActivation track (!s.isTrackActive track)

def toggleSingleActiveTrack (track : Nat) : SequencerState :=
  { s with activeTracks := if s.isTrackActive track then 0 else 1#8 <<< track }

def IsStepOn (step : Nat) : Prop := step < p.steps ∧ s.steps step &&& s.activeTracks ≠ 0
deriving Decidable

def IsStepOnForTrack (step track : Nat) : Prop := step < p.steps ∧ (s.steps step).getLsbD track = true
deriving Decidable

def editedStep (step : Nat) (value : Bool) : BitVec 8 :=
  if value then s.steps step ||| s.activeTracks else s.steps step &&& ~~~s.activeTracks

def setStep (step : Nat) (value : Bool) : SequencerState :=
  if step < p.steps then { s with steps := Function.update s.steps step (s.editedStep step value) } else s

def toggleStep (step : Nat) : SequencerState :=
  if s.IsStepOn p step then s.setStep p step false else s.setStep p step true

/-- For fewer than 256 steps; at 256 the byte that the source counts them with never ends its loop. -/
def setAllSteps (value : Bool) : SequencerState :=
  { s with steps := fun step => if step < p.steps then s.editedStep step value else s.steps step }

def setTempo (tempo : UInt8) : SequencerState := if 0 < tempo then { s with tempo := tempo } else s

def increaseTempo : SequencerState := if s.tempo < 255 then s.setTempo (s.tempo + 1) else s

def decreaseTempo : SequencerState := s.setTempo (s.tempo - 1)

def setResolution (resolution : Nat) : SequencerState :=
  if resolution < sequencerResolutions then { s with resolution := resolution } else s

def increaseResolution : SequencerState := s.setResolution (s.resolution + 1)

def decreaseResolution : SequencerState := s.setResolution ((s.resolution + 2 ^ 32 - 1) % 2 ^ 32)

def elapsed (now : UInt16) : Nat := (now - s.timer).toNat

/-- What the pattern says about a track in the current step: the note, or silence. -/
def pattern (track : Nat) : Option (BitVec 8) :=
  if s.IsStepOnForTrack p s.currentStep track then some (midiSent (midiComputeNote midi (s.trackNotes track)))
  else none

def noteOn (track : Nat) : SequencerState :=
  match s.pattern p midi track with
  | some note => { s with out := .opened track note :: s.out }
  | none => s

def noteOff (track : Nat) : SequencerState :=
  match s.pattern p midi track with
  | some note => { s with out := .closed track note :: s.out }
  | none => s

def startTimer (now : UInt16) : SequencerState := if s.currentTrack = 0 then { s with timer := now } else s

def AttackWaits (now : UInt16) : Prop := s.elapsed now < s.currentTrack * p.trackThrottle
deriving Decidable

def ReleaseWaits (now : UInt16) : Prop := s.elapsed now < p.phaseReleaseTimeout + s.currentTrack * p.trackThrottle
deriving Decidable

def PauseWaits (now : UInt16) : Prop := s.elapsed now < getStepDuration s.tempo s.resolution
deriving Decidable

def nextAttack : SequencerState :=
  if s.currentTrack < p.tracks - 1 then { s with currentTrack := s.currentTrack + 1 }
  else { s with phase := .release }

def phaseAttack (now : UInt16) : SequencerState :=
  let s := s.startTimer now
  if s.AttackWaits p now then s else (s.noteOn p midi s.currentTrack).nextAttack p

def nextRelease : SequencerState :=
  if 0 < s.currentTrack then { s with currentTrack := s.currentTrack - 1 } else { s with phase := .pause }

def phaseRelease (now : UInt16) : SequencerState :=
  if s.ReleaseWaits p now then s else (s.noteOff p midi s.currentTrack).nextRelease

def phasePause (now : UInt16) : SequencerState :=
  if s.PauseWaits now then s
  else { s with currentStep := (s.currentStep + 1) % p.steps, phase := .attack }

def afterPause (now : UInt16) : SequencerState := if s.phase = .pause then s.phasePause p now else s

def task (now : UInt16) : SequencerState :=
  if s.enabled then
    let s := s.afterPause p now
    let s := if s.phase = .release then s.phaseRelease p midi now else s
    if s.phase = .attack then s.phaseAttack p midi now else s
  else s

end SequencerState

/-- A call from the keys, from the user's code or from the main loop. -/
inductive SequencerCall where
  | on (now : UInt16)
  | off
  | toggle (now : UInt16)
  | setTrackNotes (trackNotes : Nat → UInt16)
  | setTrackActivation (track : Nat) (value : Bool)
  | toggleTrackActivation (track : Nat)
  | toggleSingleActiveTrack (track : Nat)
  | setStep (step : Nat) (value : Bool)
  | toggleStep (step : Nat)
  | setAllSteps (value : Bool)
  | setTempo (tempo : UInt8)
  | increaseTempo
  | decreaseTempo
  | setResolution (resolution : Nat)
  | increaseResolution
  | decreaseResolution
  | task (now : UInt16)

def SequencerState.call (p : SequencerSize) (midi : MidiConfig) (s : SequencerState) : SequencerCall → SequencerState
  | .on now => s.on now
  | .off => s.off
  | .toggle now => s.toggle now
  | .setTrackNotes trackNotes => s.setTrackNotes p trackNotes
  | .setTrackActivation track value => s.setTrackActivation track value
  | .toggleTrackActivation track => s.toggleTrackActivation track
  | .toggleSingleActiveTrack track => s.toggleSingleActiveTrack track
  | .setStep step value => s.setStep p step value
  | .toggleStep step => s.toggleStep p step
  | .setAllSteps value => s.setAllSteps p value
  | .setTempo tempo => s.setTempo tempo
  | .increaseTempo => s.increaseTempo
  | .decreaseTempo => s.decreaseTempo
  | .setResolution resolution => s.setResolution resolution
  | .increaseResolution => s.increaseResolution
  | .decreaseResolution => s.decreaseResolution
  | .task now => s.task p midi now

inductive Turn where
  | idle
  | attacks (track : Nat)
  | releases (track : Nat)

/-- The note that was attacked on each track and is still to be released. -/
abbrev Struck := Nat → Option (BitVec 8)

namespace SequencerState

variable (p : SequencerSize) (midi : MidiConfig) (s : SequencerState)

def due (now : UInt16) : Turn :=
  match s.phase with
  | .attack => if (s.startTimer now).AttackWaits p now then .idle else .attacks s.currentTrack
  | .release => if s.ReleaseWaits p now then .idle else .releases s.currentTrack
  | .pause => .idle

def turn (now : UInt16) : Turn := if s.enabled then (s.afterPause p now).due p now else .idle

def remember (struck : Struck) : SequencerCall → Struck
  | .task now =>
    match s.turn p now with
    | .idle => struck
    | .attacks track => Function.update struck track ((s.afterPause p now).pattern p midi track)
    | .releases track => Function.update struck track none
  | _ => struck

def Finds (struck : Struck) : Turn → Prop
  | .releases track => s.pattern p midi track = struck track
  | _ => True

instance (struck : Struck) : (t : Turn) → Decidable (s.Finds p midi struck t)
  | .releases _ => inferInstanceAs (Decidable (_ = _))
  | .idle | .attacks _ => inferInstanceAs (Decidable True)

/-- Each release finds what was attacked, and the switch is used with no note to be released. -/
def Calm (struck : Struck) : SequencerCall → Prop
  | .task now => (s.afterPause p now).Finds p midi struck (s.turn p now)
  | .on _ | .off | .toggle _ => ∀ track < p.tracks, struck track = none
  | _ => True

instance (struck : Struck) : (c : SequencerCall) → Decidable (s.Calm p midi struck c)
  | .task now => inferInstanceAs (Decidable ((s.afterPause p now).Finds p midi struck (s.turn p now)))
  | .on _ | .off | .toggle _ => inferInstanceAs (Decidable (∀ track < p.tracks, struck track = none))
  | .setTrackNotes _ | .setTrackActivation _ _ | .toggleTrackActivation _ | .toggleSingleActiveTrack _
  | .setStep _ _ | .toggleStep _ | .setAllSteps _ | .setTempo _ | .increaseTempo | .decreaseTempo
  | .setResolution _ | .increaseResolution | .decreaseResolution => inferInstanceAs (Decidable True)

def Settled : Prop := s.enabled = false ∨ s.phase = .pause

/-- The notes of a track are sent on and off in turn, and, once settled, the next entry about the track of each
note that was sent on sends it off. -/
def Balanced : Prop :=
  Paired s.out ∧
    (s.Settled → ∀ newer older track note, s.out = newer ++ .opened track note :: older →
      ∃ later between, newer = later ++ .closed track note :: between ∧ ∀ e ∈ between, e.key ≠ track)

def Rests (track : Nat) : Prop :=
  s.enabled = false ∨ p.tracks ≤ track ∨
    match s.phase with
    | .attack => s.currentTrack ≤ track
    | .release => s.currentTrack < track
    | .pause => True

structure Inv (struck : Struck) : Prop where
  paired : Paired s.out
  held_eq : heldBehind s.out = struck
  track_lt : s.currentTrack < p.tracks
  silent : ∀ track, s.Rests p track → struck track = none

end SequencerState

/-- The states that calm calls reach, each with what was attacked. -/
inductive CalmRun (p : SequencerSize) (midi : MidiConfig) : SequencerState → Struck → Prop where
  | start : CalmRun p midi initialState fun _ => none
  | call {s : SequencerState} {struck : Struck} {c : SequencerCall} :
      CalmRun p midi s struck → s.Calm p midi struck c → CalmRun p midi (s.call p midi c) (s.remember p midi struck c)

section Run

variable {p : SequencerSize} {midi : MidiConfig} {s s' : SequencerState} {struck : Struck} {now : UInt16} {track : Nat}

namespace SequencerState

theorem Rests.attack_le (h : s.Rests p track) (henabled : s.enabled = true) (hphase : s.phase = .attack) :
    s.currentTrack ≤ track ∨ p.tracks ≤ track := by
  rcases h with hoff | hbeyond | hmatch
  · cases henabled.symm.trans hoff
  · exact .inr hbeyond
  · rw [hphase] at hmatch
    exact .inl hmatch

theorem Rests.release_lt (h : s.Rests p track) (henabled : s.enabled = true) (hphase : s.phase = .release) :
    s.currentTrack < track ∨ p.tracks ≤ track := by
  rcases h with hoff | hbeyond | hmatch
  · cases henabled.symm.trans hoff
  · exact .inr hbeyond
  · rw [hphase] at hmatch
    exact .inl hmatch

namespace Inv

theorem balanced (h : s.Inv p struck) : s.Balanced := by
  refine ⟨h.paired, fun hsettled newer older track note hout => ?_⟩
  have hrests : s.Rests p track := by
    rcases hsettled with hoff | hpause
    · exact .inl hoff
    · refine .inr (.inr ?_)
      rw [hpause]
      trivial
  have hnow : heldBehind s.out track = none := (congrFun h.held_eq track).trans (h.silent track hrests)
  have hpaired := h.paired
  rw [hout] at hpaired hnow
  exact hpaired.closed_once hnow

theorem all_none (h : s.Inv p struck) (hnone : ∀ track < p.tracks, struck track = none) (track : Nat) :
    struck track = none := by
  rcases Nat.lt_or_ge track p.tracks with hlt | hge
  · exact hnone track hlt
  · exact h.silent track (.inr (.inl hge))

theorem of_out (h : s.Inv p struck) (hout : s'.out = s.out) (htrack : s'.currentTrack < p.tracks)
    (hsilent : ∀ track, s'.Rests p track → struck track = none) : s'.Inv p struck where
  paired := hout ▸ h.paired
  held_eq := hout ▸ h.held_eq
  track_lt := htrack
  silent := hsilent

theorem on (h : s.Inv p struck) (hnone : ∀ track < p.tracks, struck track = none) : (s.on now).Inv p struck :=
  h.of_out rfl p.tracks_pos fun track _ => h.all_none hnone track

theorem off (h : s.Inv p struck) (hnone : ∀ track < p.tracks, struck track = none) : s.off.Inv p struck :=
  h.of_out rfl h.track_lt fun track _ => h.all_none hnone track

theorem toggle (h : s.Inv p struck) (hnone : ∀ track < p.tracks, struck track = none) :
    (s.toggle now).Inv p struck := by
  unfold SequencerState.toggle
  split
  · exact h.off hnone
  · exact h.on hnone

end Inv

def playing (s : SequencerState) : Bool × SequencerPhase × Nat × List (Edge Nat (BitVec 8)) :=
  (s.enabled, s.phase, s.currentTrack, s.out)

theorem Inv.of_playing (h : s.Inv p struck) (heq : s'.playing = s.playing) : s'.Inv p struck := by
  simp only [playing, Prod.mk.injEq] at heq
  obtain ⟨henabled, hphase, htrack, hout⟩ := heq
  refine h.of_out hout (htrack ▸ h.track_lt) fun track hrests => h.silent track ?_
  rwa [Rests, henabled, hphase, htrack] at hrests

theorem playing_setTrackActivation (value : Bool) : (s.setTrackActivation track value).playing = s.playing := by
  unfold setTrackActivation
  split <;> rfl

theorem playing_setStep (step : Nat) (value : Bool) : (s.setStep p step value).playing = s.playing := by
  unfold setStep
  split <;> rfl

theorem playing_toggleStep (step : Nat) : (s.toggleStep p step).playing = s.playing := by
  unfold toggleStep
  split <;> exact playing_setStep step _

theorem playing_setTempo (tempo : UInt8) : (s.setTempo tempo).playing = s.playing := by
  unfold setTempo
  split <;> rfl

theorem playing_increaseTempo : s.increaseTempo.playing = s.playing := by
  unfold increaseTempo
  split
  · exact playing_setTempo _
  · rfl

theorem playing_setResolution (resolution : Nat) : (s.setResolution resolution).playing = s.playing := by
  unfold setResolution
  split <;> rfl

theorem playing_decreaseResolution : s.decreaseResolution.playing = s.playing := playing_setResolution _

theorem Inv.afterPause (h : s.Inv p struck) : (s.afterPause p now).Inv p struck := by
  unfold SequencerState.afterPause
  split
  · rename_i hpause
    unfold phasePause
    split
    · exact h
    · refine h.of_out rfl h.track_lt fun track _ => h.silent track (.inr (.inr ?_))
      rw [hpause]
      trivial
  · exact h

theorem enabled_afterPause : (s.afterPause p now).enabled = s.enabled := by
  unfold SequencerState.afterPause phasePause
  split
  · split <;> rfl
  · rfl

/-- The log behind a note of the pattern that was sent on, and behind one that was sent off. -/
theorem noteOn_sounds (midi : MidiConfig) (hpaired : Paired s.out) (hheld : heldBehind s.out = struck)
    (hnone : struck track = none) :
    Paired (s.noteOn p midi track).out ∧
      heldBehind (s.noteOn p midi track).out = Function.update struck track (s.pattern p midi track) := by
  cases hpattern : s.pattern p midi track with
  | none =>
    obtain hsame : s.noteOn p midi track = s := by simp only [noteOn, hpattern]
    rw [hsame, hheld, ← hnone, Function.update_eq_self]
    exact ⟨hpaired, rfl⟩
  | some note =>
    obtain hout : (s.noteOn p midi track).out = .opened track note :: s.out := by simp only [noteOn, hpattern]
    rw [hout]
    refine ⟨⟨?_, hpaired⟩, ?_⟩
    · rw [hheld, hnone]
    · rw [heldBehind, hheld]

theorem noteOff_sounds (hpaired : Paired s.out) (hheld : heldBehind s.out = struck)
    (hsame : s.pattern p midi track = struck track) :
    Paired (s.noteOff p midi track).out ∧
      heldBehind (s.noteOff p midi track).out = Function.update struck track none := by
  cases hpattern : s.pattern p midi track with
  | none =>
    obtain hstay : s.noteOff p midi track = s := by simp only [noteOff, hpattern]
    rw [hstay, hheld, ← hpattern, hsame, Function.update_eq_self]
    exact ⟨hpaired, rfl⟩
  | some note =>
    obtain hout : (s.noteOff p midi track).out = .closed track note :: s.out := by simp only [noteOff, hpattern]
    rw [hout]
    refine ⟨⟨?_, hpaired⟩, ?_⟩
    · rw [hheld, ← hsame, hpattern]
    · rw [heldBehind, hheld]

theorem noteOn_playing (p : SequencerSize) (midi : MidiConfig) (s : SequencerState) (track : Nat) :
    (s.noteOn p midi track).enabled = s.enabled ∧ (s.noteOn p midi track).phase = s.phase ∧
      (s.noteOn p midi track).currentTrack = s.currentTrack := by
  unfold noteOn
  split <;> exact ⟨rfl, rfl, rfl⟩

theorem noteOff_playing (p : SequencerSize) (midi : MidiConfig) (s : SequencerState) (track : Nat) :
    (s.noteOff p midi track).enabled = s.enabled ∧ (s.noteOff p midi track).phase = s.phase ∧
      (s.noteOff p midi track).currentTrack = s.currentTrack := by
  unfold noteOff
  split <;> exact ⟨rfl, rfl, rfl⟩

theorem Inv.startTimer (h : s.Inv p struck) : (s.startTimer now).Inv p struck := by
  unfold SequencerState.startTimer
  split
  · exact h.of_playing rfl
  · exact h

theorem startTimer_spec (p : SequencerSize) (midi : MidiConfig) (s : SequencerState) (now : UInt16) :
    (s.startTimer now).enabled = s.enabled ∧ (s.startTimer now).phase = s.phase ∧
    (s.startTimer now).currentTrack = s.currentTrack ∧
    ∀ track, (s.startTimer now).pattern p midi track = s.pattern p midi track := by
  unfold SequencerState.startTimer
  split <;> exact ⟨rfl, rfl, rfl, fun _ => rfl⟩

theorem Inv.attack (h : s.Inv p struck) (midi : MidiConfig) (henabled : s.enabled = true) (hphase : s.phase = .attack) :
    ((s.noteOn p midi s.currentTrack).nextAttack p).Inv p
      (Function.update struck s.currentTrack (s.pattern p midi s.currentTrack)) := by
  have hlt := h.track_lt
  have hbehind : ∀ track, s.currentTrack ≤ track → struck track = none := by
    intro track hle
    refine h.silent track (.inr (.inr ?_))
    rw [hphase]
    exact hle
  obtain ⟨hpaired, hheld⟩ := noteOn_sounds (p := p) midi h.paired h.held_eq
    (hbehind s.currentTrack (Nat.le_refl _))
  obtain ⟨hon, hstay, htrack⟩ := noteOn_playing p midi s s.currentTrack
  have hrest : ∀ track, s.currentTrack < track ∨ p.tracks ≤ track →
      Function.update struck s.currentTrack (s.pattern p midi s.currentTrack) track = none := by
    intro track hfar
    rw [Function.update_of_ne (by omega)]
    exact hbehind track (by omega)
  unfold nextAttack
  rw [htrack]
  split
  · refine ⟨hpaired, hheld, by change s.currentTrack + 1 < _; omega, fun track hrests => hrest track ?_⟩
    exact hrests.attack_le (hon.trans henabled) (hstay.trans hphase)
  · refine ⟨hpaired, hheld, htrack ▸ hlt, fun track hrests => hrest track ?_⟩
    have hpast := hrests.release_lt (hon.trans henabled) rfl
    exact htrack ▸ hpast

theorem Inv.release (h : s.Inv p struck) (henabled : s.enabled = true) (hphase : s.phase = .release)
    (hsame : s.pattern p midi s.currentTrack = struck s.currentTrack) :
    (s.noteOff p midi s.currentTrack).nextRelease.Inv p (Function.update struck s.currentTrack none) := by
  have hlt := h.track_lt
  have hbehind : ∀ track, s.currentTrack < track → struck track = none := by
    intro track hlt
    refine h.silent track (.inr (.inr ?_))
    rw [hphase]
    exact hlt
  obtain ⟨hpaired, hheld⟩ := noteOff_sounds h.paired h.held_eq hsame
  obtain ⟨hon, hstay, htrack⟩ := noteOff_playing p midi s s.currentTrack
  have hrest : ∀ track, s.currentTrack ≤ track ∨ p.tracks ≤ track →
      Function.update struck s.currentTrack none track = none := by
    intro track hfar
    by_cases heq : track = s.currentTrack
    · rw [heq, Function.update_self]
    · rw [Function.update_of_ne heq]
      exact hbehind track (by omega)
  unfold nextRelease
  rw [htrack]
  split
  · refine ⟨hpaired, hheld, by change s.currentTrack - 1 < _; omega, fun track hrests => hrest track ?_⟩
    have hpast : s.currentTrack - 1 < track ∨ p.tracks ≤ track :=
      hrests.release_lt (hon.trans henabled) (hstay.trans hphase)
    exact hpast.imp_left Nat.le_of_pred_lt
  · exact ⟨hpaired, hheld, htrack ▸ hlt, fun track _ => hrest track (by omega)⟩

theorem phaseRelease_phase (hphase : s.phase = .release) : (s.phaseRelease p midi now).phase ≠ .attack := by
  have hne : s.phase ≠ .attack := by
    rw [hphase]
    exact SequencerPhase.noConfusion
  unfold phaseRelease nextRelease
  split
  · exact hne
  · split
    · rw [← (noteOff_playing p midi s s.currentTrack).2.1] at hne
      exact hne
    · exact SequencerPhase.noConfusion

theorem Inv.task (h : s.Inv p struck) (hcalm : s.Calm p midi struck (.task now)) :
    (s.task p midi now).Inv p (s.remember p midi struck (.task now)) := by
  unfold SequencerState.task remember turn
  unfold Calm turn at hcalm
  by_cases henabled : s.enabled
  · simp only [henabled, if_true] at hcalm ⊢
    have hpause : (s.afterPause p now).Inv p struck := h.afterPause
    have hon : (s.afterPause p now).enabled = true := enabled_afterPause.trans henabled
    generalize s.afterPause p now = s at hcalm hpause hon ⊢
    cases hphase : s.phase with
    | attack =>
      obtain ⟨hon', hphase', htrack, hpattern⟩ := startTimer_spec p midi s now
      have hstart : (s.startTimer now).Inv p struck := hpause.startTimer
      simp only [reduceCtorEq, if_false, if_true, hphase, due, phaseAttack]
      split
      · exact hstart
      · have hnext := hstart.attack midi (hon'.trans hon) (hphase'.trans hphase)
        rw [hpattern, htrack] at hnext
        rw [htrack]
        exact hnext
    | release =>
      have hnot : (s.phaseRelease p midi now).phase ≠ .attack := phaseRelease_phase hphase
      simp only [if_true, if_neg hnot, due, hphase]
      unfold phaseRelease
      unfold due at hcalm
      rw [hphase] at hcalm
      split
      · exact hpause
      · rename_i hwaits
        simp only [if_neg hwaits, Finds] at hcalm
        exact hpause.release hon hphase hcalm
    | pause =>
      simp only [reduceCtorEq, if_false, hphase, due]
      exact hpause
  · simp only [henabled, Bool.false_eq_true, if_false]
    exact h

theorem Inv.call {c : SequencerCall} (h : s.Inv p struck) (hcalm : s.Calm p midi struck c) :
    (s.call p midi c).Inv p (s.remember p midi struck c) := by
  cases c with
  | on now => exact h.on hcalm
  | off => exact h.off hcalm
  | toggle now => exact h.toggle hcalm
  | setTrackNotes trackNotes => exact h.of_playing rfl
  | setTrackActivation track value => exact h.of_playing (playing_setTrackActivation value)
  | toggleTrackActivation track => exact h.of_playing (playing_setTrackActivation _)
  | toggleSingleActiveTrack track => exact h.of_playing rfl
  | setStep step value => exact h.of_playing (playing_setStep step value)
  | toggleStep step => exact h.of_playing (playing_toggleStep step)
  | setAllSteps value => exact h.of_playing rfl
  | setTempo tempo => exact h.of_playing (playing_setTempo tempo)
  | increaseTempo => exact h.of_playing playing_increaseTempo
  | decreaseTempo => exact h.of_playing (playing_setTempo _)
  | setResolution resolution => exact h.of_playing (playing_setResolution resolution)
  | increaseResolution => exact h.of_playing (playing_setResolution _)
  | decreaseResolution => exact h.of_playing playing_decreaseResolution
  | task now => exact h.task hcalm

theorem Inv.start : initialState.Inv p fun _ => none where
  paired := trivial
  held_eq := rfl
  track_lt := p.tracks_pos
  silent _ _ := rfl

end SequencerState

theorem CalmRun.inv (h : CalmRun p midi s struck) : s.Inv p struck := by
  induction h with
  | start => exact .start
  | call _ hcalm ih => exact ih.call hcalm

/-- In a run whose releases find what was attacked, and that is switched on and off between the notes only, every
note that is sent on is sent off. -/
theorem calm_run_balanced (h : CalmRun p midi s struck) : s.Balanced := h.inv.balanced

end Run

/-- Two tracks, the rest as `sequencer.h` has it. -/
def twoTracks : SequencerSize where
  steps := 16
  tracks := 2
  trackThrottle := 3
  phaseReleaseTimeout := 30
  steps_le := by decide
  tracks_pos := by decide
  tracks_le := by decide

def octaveFour : MidiConfig where
  octave := 4
  transpose := 0

def SequencerState.after (calls : List SequencerCall) : SequencerState :=
  calls.foldl (SequencerState.call twoTracks octaveFour) initialState

def oneNote : List SequencerCall :=
  [.setTrackNotes fun _ => 0x7103, .setTrackActivation 0 true, .setStep 0 true, .on 0, .task 0]

theorem calm_run_balanced_one_note :
    (SequencerState.after (oneNote ++ [.task 3, .task 33, .task 33])).Balanced ∧
      (SequencerState.after (oneNote ++ [.task 3, .task 33, .task 33])).out = [.closed 0 48, .opened 0 48] := by
  have hstart : CalmRun twoTracks octaveFour initialState fun _ => none := .start
  have hnotes := hstart.call (c := .setTrackNotes fun _ => 0x7103) trivial
  have hpattern := (hnotes.call (c := .setTrackActivation 0 true) trivial).call (c := .setStep 0 true) trivial
  have hattack := (hpattern.call (c := .on 0) fun _ _ => rfl).call (c := .task 0) trivial
  have hrelease := ((hattack.call (c := .task 3) trivial).call (c := .task 33) (by decide +kernel)).call
    (c := .task 33) (by decide +kernel)
  exact ⟨calm_run_balanced hrelease, by decide⟩

/-- Switched off before the release, the note stays on. -/
theorem sequencer_off_keeps_note : ¬ (SequencerState.after (oneNote ++ [.off])).Balanced := by
  rintro ⟨-, hclosed⟩
  obtain ⟨later, between, hnil, -⟩ := hclosed (.inl rfl) [] [] 0 48 (by decide)
  cases later <;> cases hnil

end Sequencer
end VialQmk
