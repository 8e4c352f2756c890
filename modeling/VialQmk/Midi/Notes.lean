import VialQmk.Sequencer.Notes

/-!
# Midi.Notes

The advanced MIDI keys (`process_midi.c`) and the messages that they send.

* `MidiState.processMidi`: one key event.
* `Tidy`: what each event may send, by the note that its tone key has sounding.
* `kept_run_balanced`: where each release finds the channel of its note, and no press computes the note that stands for
  none, every note-on is answered at the release of its key.
-/

namespace VialQmk
namespace Midi

open Lib Sequencer

inductive MidiKey where
  | tone (n : Fin 72)
  | octave (n : Fin 10)
  | octaveDown
  | octaveUp
  | transpose (n : Fin 13)
  | transposeDown
  | transposeUp
  | velocity (n : Fin 11)
  | velocityDown
  | velocityUp
  | channel (n : Fin 16)
  | channelDown
  | channelUp
  | allNotesOff
  | sustain
  | portamento
  | sostenuto
  | soft
  | legato
  | modulation
  | modulationSpeedDown
  | modulationSpeedUp
  | pitchBendDown
  | pitchBendUp
deriving DecidableEq, Repr

abbrev Channel := BitVec 4

/-- The messages of `midi.c`, with the data bytes that go out. -/
inductive MidiMessage where
  | noteOn (channel : Channel) (note : BitVec 8) (velocity : BitVec 7)
  | noteOff (channel : Channel) (note : BitVec 8) (velocity : BitVec 7)
  | cc (channel : Channel) (num value : BitVec 7)
  | pitchbend (channel : Channel) (amount : Int)
deriving DecidableEq, Repr

/-- `midi_config`, `tone_status` and `midi_modulation_step`. -/
structure MidiState extends MidiConfig where
  velocity : BitVec 7
  channel : Channel
  modulationInterval : BitVec 4
  toneStatus : Fin 72 → BitVec 8
  modulationStep : Int

def midiInvalidNote : BitVec 8 := 0xFF

def midiInit : MidiState where
  octave := 4
  transpose := 0
  velocity := 127
  channel := 0
  modulationInterval := 8
  toneStatus _ := midiInvalidNote
  modulationStep := 0

def computeVelocity (setting : Nat) : BitVec 7 := BitVec.ofNat 7 (setting * (128 / 10))

namespace MidiState

variable (s : MidiState)

def note (tone : Fin 72) : BitVec 8 := midiComputeNote s.toMidiConfig (0x7103 + tone.val).toUInt16

def onPress (pressed : Bool) (s' : MidiState) : MidiState × List MidiMessage := (if pressed then s' else s, [])

def pedal (num : BitVec 7) (pressed : Bool) : MidiState × List MidiMessage :=
  (s, [.cc s.channel num (if pressed then 127 else 0)])

def processTone (tone : Fin 72) (pressed : Bool) : MidiState × List MidiMessage :=
  if pressed then
    if s.toneStatus tone = midiInvalidNote then
      ({ s with toneStatus := Function.update s.toneStatus tone (s.note tone) },
        [.noteOn s.channel (midiSent (s.note tone)) s.velocity])
    else (s, [])
  else
    ({ s with toneStatus := Function.update s.toneStatus tone midiInvalidNote },
      if s.toneStatus tone = midiInvalidNote then []
      else [.noteOff s.channel (midiSent (s.toneStatus tone)) s.velocity])

def processMidi (key : MidiKey) (pressed : Bool) : MidiState × List MidiMessage :=
  match key with
  | .tone n => s.processTone n pressed
  | .octave n => s.onPress pressed { s with octave := BitVec.ofNat 4 n }
  | .octaveDown => s.onPress pressed (if 0 < s.octave then { s with octave := s.octave - 1 } else s)
  | .octaveUp => s.onPress pressed (if s.octave < 9 then { s with octave := s.octave + 1 } else s)
  | .transpose n => s.onPress pressed { s with transpose := BitVec.ofInt 4 ((n : Int) - 6) }
  | .transposeDown =>
    s.onPress pressed (if -6 < s.transpose.toInt then { s with transpose := s.transpose - 1 } else s)
  | .transposeUp =>
    s.onPress pressed
      (if s.transpose.toInt < 6 then
        let transpose := s.transpose + 1
        { s with transpose := if 0 < s.transpose.toInt ∧ transpose.toInt < 0 then transpose - 1 else transpose }
      else s)
  | .velocity n => s.onPress pressed { s with velocity := computeVelocity n }
  | .velocityDown =>
    s.onPress pressed
      (if s.velocity = 127 then { s with velocity := s.velocity - 10 }
      else if 12 < s.velocity then { s with velocity := s.velocity - 13 }
      else { s with velocity := 0 })
  | .velocityUp =>
    s.onPress pressed (if s.velocity < 115 then { s with velocity := s.velocity + 13 } else { s with velocity := 127 })
  | .channel n => s.onPress pressed { s with channel := BitVec.ofNat 4 n }
  | .channelDown => s.onPress pressed { s with channel := s.channel - 1 }
  | .channelUp => s.onPress pressed { s with channel := s.channel + 1 }
  | .allNotesOff => (s, if pressed then [.cc s.channel 0x7B 0] else [])
  | .sustain => s.pedal 0x40 pressed
  | .portamento => s.pedal 0x41 pressed
  | .sostenuto => s.pedal 0x42 pressed
  | .soft => s.pedal 0x43 pressed
  | .legato => s.pedal 0x44 pressed
  | .modulation => ({ s with modulationStep := if pressed then 1 else -1 }, [])
  | .modulationSpeedDown =>
    s.onPress pressed
      { s with modulationInterval := if s.modulationInterval = 15 then 15 else s.modulationInterval + 1 }
  | .modulationSpeedUp =>
    s.onPress pressed
      (if 0 < s.modulationInterval then { s with modulationInterval := s.modulationInterval - 1 } else s)
  | .pitchBendDown => (s, [.pitchbend s.channel (if pressed then -0x2000 else 0)])
  | .pitchBendUp => (s, [.pitchbend s.channel (if pressed then 0x1FFF else 0)])

end MidiState

structure MidiTurn where
  key : MidiKey
  pressed : Bool
  sent : List MidiMessage

def MidiState.turn (s : MidiState) (e : MidiKey × Bool) : MidiTurn := ⟨e.1, e.2, (s.processMidi e.1 e.2).2⟩

/-- The state behind the events, and the turns, the newest first. -/
def runMidi (events : List (MidiKey × Bool)) : MidiState × List MidiTurn :=
  events.foldl (fun run e => ((run.1.processMidi e.1 e.2).1, run.1.turn e :: run.2)) (midiInit, [])

abbrev Voice := Channel × BitVec 8

def MidiMessage.IsNote : MidiMessage → Prop
  | .noteOn _ _ _ | .noteOff _ _ _ => True
  | .cc _ _ _ | .pitchbend _ _ => False

/-- The voices that the tone keys have sounding behind a turn. -/
def MidiTurn.leaves (t : MidiTurn) (before : Fin 72 → Option Voice) : Fin 72 → Option Voice :=
  match t.key, t.sent with
  | .tone n, [.noteOn c note _] => Function.update before n (some (c, note))
  | .tone n, [.noteOff _ _ _] => Function.update before n none
  | _, _ => before

def sounding (turns : List MidiTurn) : Fin 72 → Option Voice := turns.foldr MidiTurn.leaves fun _ => none

/-- Each note-on is answered by the next release of its tone key, by one note-off and with nothing from the key in
between; each note-off is the answer to the last note-on of its key. -/
structure Balanced (turns : List MidiTurn) : Prop where
  answered : ∀ newer older n c note v sent between,
    turns = newer ++ ⟨.tone n, false, sent⟩ :: (between ++ ⟨.tone n, true, [.noteOn c note v]⟩ :: older) →
      (∀ t ∈ between, t.key = .tone n → t.pressed = true) →
      (∃ v', sent = [.noteOff c note v']) ∧ ∀ t ∈ between, t.key = .tone n → t.sent = []
  preceded : ∀ newer older t c note v, turns = newer ++ t :: older → .noteOff c note v ∈ t.sent →
    ∃ n between oldest v', t = ⟨.tone n, false, [.noteOff c note v]⟩ ∧
      older = between ++ ⟨.tone n, true, [.noteOn c note v']⟩ :: oldest ∧
      ∀ d ∈ between, d.key = .tone n → d.sent = []

/-- What an event of a tone key may send, by the voice that the key has sounding. -/
inductive Answers : Option Voice → Bool → List MidiMessage → Prop where
  | attack (c : Channel) (note : BitVec 8) (v : BitVec 7) : Answers none true [.noteOn c note v]
  | release (c : Channel) (note : BitVec 8) (v : BitVec 7) : Answers (some (c, note)) false [.noteOff c note v]
  | held (voice : Voice) : Answers (some voice) true []
  | silent : Answers none false []

def MidiTurn.Lawful (t : MidiTurn) (before : Fin 72 → Option Voice) : Prop :=
  match t.key with
  | .tone n => Answers (before n) t.pressed t.sent
  | _ => ∀ m ∈ t.sent, ¬ m.IsNote

def Tidy : List MidiTurn → Prop
  | [] => True
  | t :: older => t.Lawful (sounding older) ∧ Tidy older

/-- A press of a silent key computes a note that is not the one that stands for none, and a release finds the
channel of the note. -/
def Kept (s : MidiState) (before : Fin 72 → Option Voice) : MidiKey × Bool → Prop
  | (.tone n, true) => s.toneStatus n = midiInvalidNote → s.note n ≠ midiInvalidNote
  | (.tone n, false) => ∀ c note, before n = some (c, note) → s.channel = c
  | _ => True

def Keeps (events : List (MidiKey × Bool)) : Prop :=
  ∀ older e newer, events = older ++ e :: newer → Kept (runMidi older).1 (sounding (runMidi older).2) e

section Turns

variable {t : MidiTurn} {turns newer older : List MidiTurn} {before : Fin 72 → Option Voice} {n : Fin 72} {c : Channel}
  {note : BitVec 8} {v : BitVec 7}

theorem MidiTurn.leaves_cases (t : MidiTurn) (before : Fin 72 → Option Voice) :
    t.leaves before = before ∨ ∃ m voice, t.key = .tone m ∧ t.leaves before = Function.update before m voice := by
  unfold leaves
  split
  · exact .inr ⟨_, _, ‹_›, rfl⟩
  · exact .inr ⟨_, _, ‹_›, rfl⟩
  · exact .inl rfl

theorem MidiTurn.leaves_of_key_ne (hne : t.key ≠ .tone n) : t.leaves before n = before n := by
  rcases t.leaves_cases before with heq | ⟨m, voice, hkey, heq⟩
  · rw [heq]
  · have hnm : n ≠ m := fun h => hne (hkey.trans (by rw [h]))
    simp [heq, hnm]

theorem MidiTurn.leaves_of_sent_nil (hsent : t.sent = []) : t.leaves before = before := by
  simp [leaves, hsent]

theorem Tidy.of_append (h : Tidy (newer ++ older)) : Tidy older := by
  induction newer with
  | nil => exact h
  | cons t newer ih => exact ih h.2

theorem Tidy.sounding_of_held {between : List MidiTurn} (h : Tidy (between ++ older))
    (hsound : sounding older n = some (c, note)) (hheld : ∀ t ∈ between, t.key = .tone n → t.pressed = true) :
    sounding (between ++ older) n = some (c, note) ∧ ∀ t ∈ between, t.key = .tone n → t.sent = [] := by
  induction between with
  | nil => simpa using hsound
  | cons t between ih =>
    obtain ⟨hstill, hquiet⟩ := ih h.2 fun d hd => hheld d (List.mem_cons_of_mem t hd)
    have hlaw : t.Lawful (sounding (between ++ older)) := h.1
    by_cases hkey : t.key = .tone n
    · have hpressed := hheld t List.mem_cons_self hkey
      simp only [MidiTurn.Lawful, hkey, hpressed, hstill] at hlaw
      have hsent : t.sent = [] := by
        generalize t.sent = sent at hlaw
        cases hlaw
        rfl
      refine ⟨?_, ?_⟩
      · change t.leaves (sounding (between ++ older)) n = _
        rw [MidiTurn.leaves_of_sent_nil hsent, hstill]
      · intro d hd hdkey
        rcases List.mem_cons.mp hd with rfl | hd
        · exact hsent
        · exact hquiet d hd hdkey
    · refine ⟨?_, ?_⟩
      · change t.leaves (sounding (between ++ older)) n = _
        rw [MidiTurn.leaves_of_key_ne hkey, hstill]
      · intro d hd hdkey
        rcases List.mem_cons.mp hd with rfl | hd
        · exact absurd hdkey hkey
        · exact hquiet d hd hdkey

theorem Tidy.attacked_of_sounding (h : Tidy turns) (hsound : sounding turns n = some (c, note)) :
    ∃ between oldest v, turns = between ++ ⟨.tone n, true, [.noteOn c note v]⟩ :: oldest ∧
      ∀ t ∈ between, t.key = .tone n → t.sent = [] := by
  induction turns with
  | nil => cases hsound
  | cons t turns ih =>
    have hlaw := h.1
    obtain ⟨key, pressed, sent⟩ := t
    by_cases hkey : key = .tone n
    · subst hkey
      simp only [MidiTurn.Lawful] at hlaw
      change MidiTurn.leaves _ (sounding turns) n = _ at hsound
      generalize hbefore : sounding turns n = voice at hlaw
      cases hlaw with
      | attack c' note' v =>
        simp only [MidiTurn.leaves, Function.update_self, Option.some.injEq, Prod.mk.injEq] at hsound
        obtain ⟨rfl, rfl⟩ := hsound
        exact ⟨[], turns, v, rfl, by simp⟩
      | release c' note' v => simp [MidiTurn.leaves] at hsound
      | held voice =>
        obtain ⟨between, oldest, v, rfl, hquiet⟩ := ih h.2 hsound
        exact ⟨⟨.tone n, true, []⟩ :: between, oldest, v, rfl, by simpa using hquiet⟩
      | silent =>
        simp only [MidiTurn.leaves] at hsound
        cases hbefore.symm.trans hsound
    · have hsame : MidiTurn.leaves ⟨key, pressed, sent⟩ (sounding turns) n = sounding turns n :=
        MidiTurn.leaves_of_key_ne hkey
      obtain ⟨between, oldest, v, rfl, hquiet⟩ := ih h.2 (hsame.symm.trans hsound)
      refine ⟨⟨key, pressed, sent⟩ :: between, oldest, v, rfl, ?_⟩
      intro d hd hdkey
      rcases List.mem_cons.mp hd with rfl | hd
      · exact absurd hdkey hkey
      · exact hquiet d hd hdkey

theorem MidiTurn.Lawful.of_noteOff (h : t.Lawful before) (hsent : .noteOff c note v ∈ t.sent) :
    ∃ n, t = ⟨.tone n, false, [.noteOff c note v]⟩ ∧ before n = some (c, note) := by
  obtain ⟨key, pressed, sent⟩ := t
  unfold Lawful at h
  split at h
  · next n hkey =>
    simp only at hkey h hsent
    subst hkey
    generalize hbefore : before n = voice at h
    cases h with
    | attack c' note' v' => simp at hsent
    | release c' note' v' =>
      simp only [List.mem_singleton, MidiMessage.noteOff.injEq] at hsent
      obtain ⟨rfl, rfl, rfl⟩ := hsent
      exact ⟨n, rfl, hbefore⟩
    | held voice => simp at hsent
    | silent => simp at hsent
  · exact absurd trivial (h _ hsent)

theorem Tidy.balanced (h : Tidy turns) : Balanced turns where
  answered := by
    rintro newer older n c note v sent between rfl hheld
    have hrelease := h.of_append
    have hpress : Tidy (⟨.tone n, true, [.noteOn c note v]⟩ :: older) := hrelease.2.of_append
    have hsound : sounding (⟨.tone n, true, [.noteOn c note v]⟩ :: older) n = some (c, note) := by
      simp [sounding, MidiTurn.leaves]
    obtain ⟨hstill, hquiet⟩ := hrelease.2.sounding_of_held hsound hheld
    refine ⟨?_, hquiet⟩
    have hlaw := hrelease.1
    simp only [MidiTurn.Lawful, hstill] at hlaw
    cases hlaw with
    | release _ _ v' => exact ⟨v', rfl⟩
  preceded := by
    rintro newer older t c note v rfl hsent
    have hsuffix := h.of_append
    obtain ⟨n, ht, hsound⟩ := hsuffix.1.of_noteOff hsent
    obtain ⟨between, oldest, v', holder, hquiet⟩ := hsuffix.2.attacked_of_sounding hsound
    exact ⟨n, between, oldest, v', ht, holder, hquiet⟩

end Turns

def Remembers (s : MidiState) (before : Fin 72 → Option Voice) : Prop :=
  ∀ n, (before n = none ∧ s.toneStatus n = midiInvalidNote) ∨
    ∃ c, before n = some (c, midiSent (s.toneStatus n)) ∧ s.toneStatus n ≠ midiInvalidNote

section Run

variable {s s' : MidiState} {before : Fin 72 → Option Voice} {n : Fin 72}

namespace MidiState

theorem toneStatus_onPress (pressed : Bool) (h : s'.toneStatus = s.toneStatus) :
    (s.onPress pressed s').1.toneStatus = s.toneStatus := by
  cases pressed with
  | false => rfl
  | true => exact h

theorem processMidi_of_not_tone {key : MidiKey} (pressed : Bool) (h : ∀ n, key ≠ .tone n) :
    (s.processMidi key pressed).1.toneStatus = s.toneStatus ∧ ∀ m ∈ (s.processMidi key pressed).2, ¬ m.IsNote := by
  cases key with
  | tone n => exact absurd rfl (h n)
  | octave n => exact ⟨toneStatus_onPress pressed rfl, by simp [processMidi, onPress]⟩
  | octaveDown => exact ⟨toneStatus_onPress pressed (by split <;> rfl), by simp [processMidi, onPress]⟩
  | octaveUp => exact ⟨toneStatus_onPress pressed (by split <;> rfl), by simp [processMidi, onPress]⟩
  | transpose n => exact ⟨toneStatus_onPress pressed rfl, by simp [processMidi, onPress]⟩
  | transposeDown => exact ⟨toneStatus_onPress pressed (by split <;> rfl), by simp [processMidi, onPress]⟩
  | transposeUp => exact ⟨toneStatus_onPress pressed (by split <;> rfl), by simp [processMidi, onPress]⟩
  | velocity n => exact ⟨toneStatus_onPress pressed rfl, by simp [processMidi, onPress]⟩
  | velocityDown => exact ⟨toneStatus_onPress pressed (by split_ifs <;> rfl), by simp [processMidi, onPress]⟩
  | velocityUp => exact ⟨toneStatus_onPress pressed (by split <;> rfl), by simp [processMidi, onPress]⟩
  | channel n => exact ⟨toneStatus_onPress pressed rfl, by simp [processMidi, onPress]⟩
  | channelDown => exact ⟨toneStatus_onPress pressed rfl, by simp [processMidi, onPress]⟩
  | channelUp => exact ⟨toneStatus_onPress pressed rfl, by simp [processMidi, onPress]⟩
  | allNotesOff => cases pressed <;> exact ⟨rfl, by simp [processMidi, MidiMessage.IsNote]⟩
  | sustain => exact ⟨rfl, by simp [processMidi, pedal, MidiMessage.IsNote]⟩
  | portamento => exact ⟨rfl, by simp [processMidi, pedal, MidiMessage.IsNote]⟩
  | sostenuto => exact ⟨rfl, by simp [processMidi, pedal, MidiMessage.IsNote]⟩
  | soft => exact ⟨rfl, by simp [processMidi, pedal, MidiMessage.IsNote]⟩
  | legato => exact ⟨rfl, by simp [processMidi, pedal, MidiMessage.IsNote]⟩
  | modulation => exact ⟨rfl, by simp [processMidi]⟩
  | modulationSpeedDown => exact ⟨toneStatus_onPress pressed rfl, by simp [processMidi, onPress]⟩
  | modulationSpeedUp => exact ⟨toneStatus_onPress pressed (by split <;> rfl), by simp [processMidi, onPress]⟩
  | pitchBendDown => exact ⟨rfl, by simp [processMidi, MidiMessage.IsNote]⟩
  | pitchBendUp => exact ⟨rfl, by simp [processMidi, MidiMessage.IsNote]⟩

end MidiState

theorem Remembers.of_toneStatus (h : Remembers s before) (heq : s'.toneStatus = s.toneStatus) : Remembers s' before := by
  intro n
  rw [heq]
  exact h n

theorem Remembers.update {voice : Option Voice} (note : BitVec 8) (h : Remembers s before)
    (hs' : s'.toneStatus = Function.update s.toneStatus n note)
    (hvoice : (voice = none ∧ note = midiInvalidNote) ∨ ∃ c, voice = some (c, midiSent note) ∧ note ≠ midiInvalidNote) :
    Remembers s' (Function.update before n voice) := by
  intro m
  rw [hs']
  by_cases hm : m = n
  · subst hm
    simpa using hvoice
  · simpa [hm] using h m

theorem Remembers.tone_press (h : Remembers s before) (hkept : Kept s before (.tone n, true)) :
    (s.turn (.tone n, true)).Lawful before ∧
      Remembers (s.processTone n true).1 ((s.turn (.tone n, true)).leaves before) := by
  rcases h n with ⟨hnone, hsilent⟩ | ⟨c, hsome, hnote⟩
  · have hsent : s.turn (.tone n, true) = ⟨.tone n, true, [.noteOn s.channel (midiSent (s.note n)) s.velocity]⟩ := by
      simp [MidiState.turn, MidiState.processMidi, MidiState.processTone, hsilent]
    rw [hsent]
    refine ⟨?_, ?_⟩
    · simpa [MidiTurn.Lawful, hnone] using Answers.attack _ _ _
    · refine h.update (s.note n) ?_ (.inr ⟨s.channel, rfl, hkept hsilent⟩)
      simp [MidiState.processTone, hsilent]
  · have hsent : s.turn (.tone n, true) = ⟨.tone n, true, []⟩ := by
      simp [MidiState.turn, MidiState.processMidi, MidiState.processTone, hnote]
    rw [hsent]
    refine ⟨?_, ?_⟩
    · simpa [MidiTurn.Lawful, hsome] using Answers.held _
    · refine h.of_toneStatus ?_
      simp [MidiState.processTone, hnote]

theorem Remembers.tone_release (h : Remembers s before) (hkept : Kept s before (.tone n, false)) :
    (s.turn (.tone n, false)).Lawful before ∧
      Remembers (s.processTone n false).1 ((s.turn (.tone n, false)).leaves before) := by
  rcases h n with ⟨hnone, hsilent⟩ | ⟨c, hsome, hnote⟩
  · have hsent : s.turn (.tone n, false) = ⟨.tone n, false, []⟩ := by
      simp [MidiState.turn, MidiState.processMidi, MidiState.processTone, hsilent]
    rw [hsent]
    refine ⟨?_, ?_⟩
    · simpa [MidiTurn.Lawful, hnone] using Answers.silent
    · refine h.of_toneStatus ?_
      simp [MidiState.processTone, hsilent, Function.update_eq_self_iff]
  · have hchannel : s.channel = c := hkept c _ hsome
    have hsent : s.turn (.tone n, false) =
        ⟨.tone n, false, [.noteOff c (midiSent (s.toneStatus n)) s.velocity]⟩ := by
      simp [MidiState.turn, MidiState.processMidi, MidiState.processTone, hnote, hchannel]
    rw [hsent]
    refine ⟨?_, ?_⟩
    · simpa [MidiTurn.Lawful, hsome] using Answers.release _ _ _
    · refine h.update midiInvalidNote ?_ (.inl ⟨rfl, rfl⟩)
      simp [MidiState.processTone]

theorem Remembers.step (h : Remembers s before) {e : MidiKey × Bool} (hkept : Kept s before e) :
    (s.turn e).Lawful before ∧ Remembers (s.processMidi e.1 e.2).1 ((s.turn e).leaves before) := by
  obtain ⟨key, pressed⟩ := e
  by_cases htone : ∃ n, key = .tone n
  · obtain ⟨n, rfl⟩ := htone
    cases pressed with
    | false => exact h.tone_release hkept
    | true => exact h.tone_press hkept
  · have hne : ∀ n, key ≠ .tone n := fun n hkey => htone ⟨n, hkey⟩
    obtain ⟨hstatus, hquiet⟩ := MidiState.processMidi_of_not_tone (s := s) pressed hne
    have hleaves : (s.turn (key, pressed)).leaves before = before :=
      funext fun n => MidiTurn.leaves_of_key_ne (hne n)
    refine ⟨?_, ?_⟩
    · unfold MidiTurn.Lawful
      split
      · next n hkey => exact absurd hkey (hne n)
      · exact hquiet
    · rw [hleaves]
      exact h.of_toneStatus hstatus

theorem runMidi_concat (events : List (MidiKey × Bool)) (e : MidiKey × Bool) :
    runMidi (events ++ [e]) =
      (((runMidi events).1.processMidi e.1 e.2).1, (runMidi events).1.turn e :: (runMidi events).2) := by
  simp [runMidi]

theorem Keeps.tidy {events : List (MidiKey × Bool)} (h : Keeps events) :
    Tidy (runMidi events).2 ∧ Remembers (runMidi events).1 (sounding (runMidi events).2) := by
  induction events using List.reverseRecOn with
  | nil => exact ⟨trivial, fun n => .inl ⟨rfl, rfl⟩⟩
  | append_singleton events e ih =>
    obtain ⟨htidy, hremembers⟩ := ih fun older d newer heq => h older d (newer ++ [e]) (by simp [heq])
    obtain ⟨hlaw, hnext⟩ := hremembers.step (h events e [] rfl)
    rw [runMidi_concat]
    exact ⟨⟨hlaw, htidy⟩, hnext⟩

theorem keeps_nil : Keeps [] := by
  intro older e newer heq
  simp at heq

theorem Keeps.concat {events : List (MidiKey × Bool)} {e : MidiKey × Bool} (h : Keeps events)
    (he : Kept (runMidi events).1 (sounding (runMidi events).2) e) : Keeps (events ++ [e]) := by
  intro older d newer heq
  rcases List.eq_nil_or_concat newer with rfl | ⟨rest, last, rfl⟩
  · obtain ⟨rfl, hlast⟩ := List.append_inj' heq rfl
    simp only [List.cons.injEq, and_true] at hlast
    exact hlast ▸ he
  · have hinner : events ++ [e] = (older ++ d :: rest) ++ [last] := by simpa using heq
    exact h older d rest (List.append_inj' hinner rfl).1

theorem kept_run_balanced (events : List (MidiKey × Bool)) (h : Keeps events) : Balanced (runMidi events).2 :=
  h.tidy.1.balanced

end Run

/-- The octave goes up and the velocity down under a held key. -/
theorem kept_run_balanced_octave_changed :
    Balanced (runMidi [(.tone 0, true), (.octaveUp, true), (.velocityDown, true), (.tone 0, false)]).2 := by
  refine kept_run_balanced _ ?_
  have hpress : Keeps [(.tone 0, true)] := keeps_nil.concat fun _ => by decide
  have hvelocity : Keeps [(.tone 0, true), (.octaveUp, true), (.velocityDown, true)] :=
    (hpress.concat (e := (.octaveUp, true)) trivial).concat trivial
  refine hvelocity.concat fun c note hsound => ?_
  cases hsound
  rfl

/-- The channel goes up under a held key; and the tone one below the lowest note computes the note for none. -/
theorem channel_changed_not_balanced :
    ¬ Balanced (runMidi [(.tone 0, true), (.channelUp, true), (.tone 0, false)]).2 ∧
      ¬ Balanced (runMidi [(.octave 0, true), (.transposeDown, true), (.tone 0, true), (.tone 0, false)]).2 := by
  refine ⟨?_, ?_⟩
  · intro h
    obtain ⟨⟨v, hsent⟩, -⟩ := h.answered [] [] 0 0 48 127 [.noteOff 1 48 127] [⟨.channelUp, true, []⟩] rfl (by simp)
    simp at hsent
  · intro h
    obtain ⟨⟨v, hsent⟩, -⟩ := h.answered [] [⟨.transposeDown, true, []⟩, ⟨.octave 0, true, []⟩] 0 0 127 127 [] [] rfl
      (by simp)
    cases hsent

end Midi
end VialQmk
