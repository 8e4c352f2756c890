import VialQmk.Audio.ToneRuns

/-!
# Audio.Melody

The melody of `audio.c`, where time may pass between any two reads of the timer. A note is read from the array as far
as that goes.

* `audioUpdateStateAt_const`: with one value of the timer for a call, the update is that of the tones.
* `skipMissedAt_spec`, `nextNoteAt_spec`: what the melody comes to.
* `melody_stays_and_ends`: in each run where the driver still runs when the last note ends, the notes are read in the
  array and started in order, and the melody ends.
-/

namespace VialQmk
namespace Audio

variable {Pitch : Type} [DecidableEq Pitch] (cfg : AudioConfig Pitch)

/-- What the timer says where a call of `audio_update_state` reads it: `current_time`, the two times that have elapsed
since the note, `time_started` of the next one, and the playtimes of the tones. -/
structure TimerReads where
  current : UInt16
  elapsed : UInt16
  overshoot : UInt16
  started : UInt16
  playtime : Nat → UInt16

def TimerReads.const (now : UInt16) : TimerReads := ⟨now, now, now, now, fun _ => now⟩

inductive MelodyFault where
  | outOfBounds
  | divisionByZero
deriving DecidableEq, Repr

/-- What an update plays of the melody: a note, or the rest behind one. -/
inductive MelodyEvent where
  | note (i : Nat)
  | rest (i : Nat)
deriving DecidableEq, Repr

namespace AudioState

variable (s : AudioState Pitch)

def readNote (i : UInt16) : Except MelodyFault (Pitch × UInt16) :=
  if i < s.notesCount then .ok (s.notes i.toNat) else .error .outOfBounds

/-- `audio_play_melody`, which reads the timer for `time_started` and for `last_timestamp`. -/
def audioPlayMelodyAt (started stamp : UInt16) (notes : Nat → Pitch × UInt16) (notesCount : UInt16)
    (notesRepeat : Bool) : AudioState Pitch :=
  if ¬ s.enabled then s.audioStopAll cfg
  else if notesCount = 0 then s
  else
    let s := if s.playingNote then s.audioStopAll cfg else s
    let s := { s with
      playingMelody := true
      noteResting := false
      notes := notes
      notesCount := notesCount
      notesRepeat := notesRepeat
      currentNote := 0 }
    let duration := cfg.durationToMs (notes 0).2
    { s.audioPlayNote cfg started (notes 0).1 duration with
      lastTimestamp := stamp
      melodyCurrentNoteDuration := duration }

def skipMissedAt (delta currentNote : UInt16) : Except MelodyFault (UInt16 × UInt16 × UInt16) :=
  match s.readNote currentNote with
  | .error fault => .error fault
  | .ok note =>
    let duration := cfg.durationToMs note.2
    if duration < delta ∧ currentNote.toNat < s.notesCount.toNat - 1 then
      skipMissedAt (delta - duration) (currentNote + 1)
    else .ok (delta, currentNote, duration)
termination_by s.notesCount.toNat - currentNote.toNat
decreasing_by
  rename_i h
  have hlt := s.notesCount.toNat_lt
  have hsucc : (currentNote + 1).toNat = currentNote.toNat + 1 := by
    rw [UInt16.toNat_add]
    exact Nat.mod_eq_of_lt (by simp; omega)
  omega

/-- The next note has the pitch of the one before it, which no rest separates. -/
def pitchAgain (previousNote currentNote : UInt16) : Except MelodyFault Bool :=
  if s.noteResting then .ok false
  else do
    let previous ← s.readNote previousNote
    let current ← s.readNote currentNote
    return decide (previous.1 = current.1)

/-- The end of a note of the melody: what is played next, or nothing behind the last note. -/
def nextNoteAt (r : TimerReads) : Except MelodyFault (AudioState Pitch × Option (MelodyEvent × Pitch × UInt16)) :=
  let delta := r.overshoot - s.lastTimestamp - s.melodyCurrentNoteDuration
  let previousNote := s.currentNote
  let currentNote := previousNote + 1
  if s.notesCount ≤ currentNote ∧ ¬ s.notesRepeat then
    .ok ({ s with lastTimestamp := r.current, currentNote := currentNote }, none)
  else do
    let currentNote := if s.notesCount ≤ currentNote then 0 else currentNote
    if ← s.pitchAgain previousNote currentNote then
      let (s, note) := s.restNote cfg r.current
      return (s, some (.rest previousNote.toNat, note))
    else
      let (delta, currentNote, duration) ← s.skipMissedAt cfg delta currentNote
      let duration := if delta < duration then duration - delta else 1
      let note ← s.readNote currentNote
      return ({ s with
        lastTimestamp := r.current
        noteResting := false
        currentNote := currentNote
        melodyCurrentNoteDuration := duration }, some (.note currentNote.toNat, note.1, duration))

/-- The loop that stops tones, from slot `i` on, in at most `n` turns. -/
def expireAt (playtime : Nat → UInt16) : Nat → Nat → AudioState Pitch → AudioState Pitch
  | 0, _, s => s
  | n + 1, i, s =>
    if i < s.activeTones then
      expireAt playtime n (i + 1) (if (s.tones i).Expired (playtime i) then s.audioStopTone cfg (s.tones i).pitch else s)
    else s

def updateNotesAt (r : TimerReads) (gotoNextNote effects : Bool) : Except MelodyFault (Bool × AudioState Pitch) :=
  if s.playingNote then
    match s.multiplex cfg r.current with
    | none => .error .divisionByZero
    | some s =>
      .ok ((expireAt cfg r.playtime s.activeTones 0 s).reportUpdate (gotoNextNote || cfg.multiplexing || effects))
  else .ok (s.reportUpdate gotoNextNote)

def audioUpdateStateAt (r : TimerReads) (effects : Bool) :
    Except MelodyFault (Bool × Option MelodyEvent × AudioState Pitch) :=
  if ¬ s.playingNote ∧ ¬ s.playingMelody then .ok (false, none, s)
  else if s.melodyDue r.elapsed then
    match s.nextNoteAt cfg r with
    | .error fault => .error fault
    | .ok (s, none) => .ok (false, none, s.audioStopAll cfg)
    | .ok (s, some (event, pitch, duration)) =>
      ((s.audioPlayNote cfg r.started pitch duration).updateNotesAt cfg r true effects).map
        fun (update, s) => (update, some event, s)
  else (s.updateNotesAt cfg r false effects).map fun (update, s) => (update, none, s)

end AudioState

structure Melody (Pitch : Type) where
  enabled : Bool
  playing : Bool
  notes : Nat → Pitch × UInt16
  notesCount : UInt16
  notesRepeat : Bool
  currentNoteDuration : UInt16
  currentNote : UInt16
  noteResting : Bool
  lastTimestamp : UInt16

namespace AudioState

variable {cfg} {s : AudioState Pitch}

def melody (s : AudioState Pitch) : Melody Pitch where
  enabled := s.enabled
  playing := s.playingMelody
  notes := s.notes
  notesCount := s.notesCount
  notesRepeat := s.notesRepeat
  currentNoteDuration := s.melodyCurrentNoteDuration
  currentNote := s.currentNote
  noteResting := s.noteResting
  lastTimestamp := s.lastTimestamp

theorem melody_playNote (cfg : AudioConfig Pitch) (s : AudioState Pitch) (now : UInt16) (pitch : Pitch) (duration : UInt16) :
    (s.audioPlayNote cfg now pitch duration).melody = s.melody := by
  unfold audioPlayNote
  split
  · simp only
    split <;> rfl
  · rfl

theorem melody_stopTone (s : AudioState Pitch) (pitch : Pitch) : (s.audioStopTone cfg pitch).melody = s.melody := by
  unfold audioStopTone
  simp only
  split
  · split <;> rfl
  · rfl

theorem melody_expireAt (playtime : Nat → UInt16) (n i : Nat) (s : AudioState Pitch) :
    (expireAt cfg playtime n i s).melody = s.melody := by
  induction n generalizing i s with
  | zero => rfl
  | succ n ih =>
    rw [expireAt]
    split
    · rw [ih]
      split
      · exact melody_stopTone s _
      · rfl
    · rfl

omit [DecidableEq Pitch] in
theorem melody_multiplex {now : UInt16} {t : AudioState Pitch} (h : s.multiplex cfg now = some t) :
    t.melody = s.melody := by
  unfold multiplex at h
  split at h
  · simp only at h
    split at h
    · cases h
    · cases h
      rfl
  · cases h
    rfl

omit [DecidableEq Pitch] in
theorem melody_reportUpdate (s : AudioState Pitch) (gotoNextNote : Bool) :
    (s.reportUpdate gotoNextNote).2.melody = s.melody := by
  unfold reportUpdate
  split <;> rfl

theorem updateNotesAt_cases (cfg : AudioConfig Pitch) (s : AudioState Pitch) (r : TimerReads) (gotoNextNote effects : Bool) :
    s.updateNotesAt cfg r gotoNextNote effects = .error .divisionByZero ∧ cfg.multiplexing = true ∨
      ∃ update t, s.updateNotesAt cfg r gotoNextNote effects = .ok (update, t) ∧ t.melody = s.melody := by
  rw [updateNotesAt]
  split
  · cases hmultiplex : s.multiplex cfg r.current with
    | none =>
      refine .inl ⟨rfl, ?_⟩
      by_contra hoff
      rw [multiplex, if_neg hoff] at hmultiplex
      cases hmultiplex
    | some t =>
      refine .inr ⟨_, _, rfl, ?_⟩
      exact (melody_reportUpdate _ _).trans ((melody_expireAt _ _ _ t).trans (melody_multiplex hmultiplex))
  · exact .inr ⟨_, _, rfl, melody_reportUpdate s gotoNextNote⟩

omit [DecidableEq Pitch] in
theorem readNote_of_lt {i : UInt16} (h : i < s.notesCount) : s.readNote i = .ok (s.notes i.toNat) := if_pos h

theorem toNat_succ {i n : UInt16} (h : i < n) : (i + 1).toNat = i.toNat + 1 := by
  have hlt := UInt16.lt_iff_toNat_lt.mp h
  have hn := n.toNat_lt
  rw [UInt16.toNat_add]
  exact Nat.mod_eq_of_lt (by simp; omega)

omit [DecidableEq Pitch] in
theorem skipMissedAt_spec (cfg : AudioConfig Pitch) (delta : UInt16) {currentNote : UInt16} (h : currentNote < s.notesCount) :
    ∃ delta' i duration, s.skipMissedAt cfg delta currentNote = .ok (delta', i, duration) ∧ currentNote ≤ i ∧
      i < s.notesCount := by
  fun_induction skipMissedAt cfg s delta currentNote with
  | case1 delta currentNote fault hread =>
    rw [readNote_of_lt h] at hread
    cases hread
  | case2 delta currentNote note hread duration hcond ih =>
    have hsucc := toNat_succ h
    have hnext : currentNote + 1 < s.notesCount := by
      rw [UInt16.lt_iff_toNat_lt, hsucc]
      omega
    obtain ⟨delta', i, duration', heq, hle, hlt⟩ := ih hnext
    refine ⟨delta', i, duration', heq, ?_, hlt⟩
    rw [UInt16.le_iff_toNat_le] at hle ⊢
    omega
  | case3 delta currentNote note hread duration hcond => exact ⟨_, _, _, rfl, UInt16.le_refl _, h⟩

end AudioState

def MelodyEvent.index : MelodyEvent → Nat
  | .note i | .rest i => i

/-- What may be played behind an event: a note that comes later, or any behind the last one of a song that repeats,
and a rest behind a note of which the next one has the pitch. -/
def Follows (notes : Nat → Pitch × UInt16) (n : Nat) (notesRepeat : Bool) : MelodyEvent → MelodyEvent → Prop
  | event, .note j => j < n ∧ (event.index < j ∨ notesRepeat = true ∧ event.index + 1 = n)
  | .note i, .rest j => j = i ∧
    (i + 1 < n ∧ (notes i).1 = (notes (i + 1)).1 ∨ notesRepeat = true ∧ i + 1 = n ∧ (notes i).1 = (notes 0).1)
  | .rest _, .rest _ => False

namespace AudioState

variable (s : AudioState Pitch)

/-- The update finds that the duration of the last note of a song has elapsed. -/
def LastNoteEnds (r : TimerReads) : Prop :=
  s.melodyDue r.elapsed = true ∧ s.notesRepeat = false ∧ s.notesCount ≤ s.currentNote + 1
deriving Decidable

def DriverRuns (r : TimerReads) : Prop := s.LastNoteEnds r → s.driverStopped = false
deriving Decidable

end AudioState

/-- A song is played in any state with audio enabled, and updated at any times; the events are the newest first. -/
inductive MelodyRun (cfg : AudioConfig Pitch) (notes : Nat → Pitch × UInt16) (notesCount : UInt16) (notesRepeat : Bool)
    (Meets : AudioState Pitch → TimerReads → Prop) : AudioState Pitch → List MelodyEvent → Prop where
  | play {s : AudioState Pitch} (started stamp : UInt16) : s.enabled = true → 0 < notesCount →
    MelodyRun cfg notes notesCount notesRepeat Meets
      (s.audioPlayMelodyAt cfg started stamp notes notesCount notesRepeat) [.note 0]
  | update {s s' : AudioState Pitch} {log : List MelodyEvent} {r : TimerReads} {effects updated : Bool}
    {event : Option MelodyEvent} : MelodyRun cfg notes notesCount notesRepeat Meets s log → Meets s r →
    s.audioUpdateStateAt cfg r effects = .ok (updated, event, s') →
    MelodyRun cfg notes notesCount notesRepeat Meets s' (event.toList ++ log)

namespace AudioState

variable {cfg} {s : AudioState Pitch}

theorem pitchAgain_spec {i j : UInt16} (hi : i < s.notesCount) (hj : j < s.notesCount) :
    s.pitchAgain i j = .ok (!s.noteResting && decide ((s.notes i.toNat).1 = (s.notes j.toNat).1)) := by
  rw [pitchAgain, readNote_of_lt hi, readNote_of_lt hj]
  cases s.noteResting <;> rfl

def At (s : AudioState Pitch) (event : MelodyEvent) : Prop :=
  s.currentNote < s.notesCount ∧ event = if s.noteResting then .rest s.currentNote.toNat else .note s.currentNote.toNat

omit [DecidableEq Pitch] in
theorem skipMissedAt_eq {delta currentNote : UInt16} (h : currentNote < s.notesCount) :
    s.skipMissedAt cfg delta currentNote = .ok (skipMissed cfg s.notes s.notesCount delta currentNote) := by
  fun_induction skipMissedAt cfg s delta currentNote with
  | case1 delta currentNote fault hread =>
    rw [readNote_of_lt h] at hread
    cases hread
  | case2 delta currentNote note hread duration hcond ih =>
    rw [readNote_of_lt h] at hread
    cases hread
    have hnext : currentNote + 1 < s.notesCount := by
      rw [UInt16.lt_iff_toNat_lt, toNat_succ h]
      omega
    rw [ih hnext]
    conv_rhs => rw [skipMissed]
    rw [if_pos hcond]
  | case3 delta currentNote note hread duration hcond =>
    rw [readNote_of_lt h] at hread
    cases hread
    rw [skipMissed, if_neg hcond]

/-- The note behind the one that ends, round the end of a song that repeats. -/
def nextIndex (s : AudioState Pitch) : UInt16 := if s.notesCount ≤ s.currentNote + 1 then 0 else s.currentNote + 1

omit [DecidableEq Pitch] in
theorem nextIndex_cases (hlt : s.currentNote < s.notesCount)
    (hend : ¬ (s.notesCount ≤ s.currentNote + 1 ∧ ¬ s.notesRepeat = true)) :
    s.nextIndex = s.currentNote + 1 ∧ s.currentNote.toNat + 1 < s.notesCount.toNat ∨
      s.notesRepeat = true ∧ s.nextIndex = 0 ∧ s.currentNote.toNat + 1 = s.notesCount.toNat := by
  have hsucc := toNat_succ hlt
  rw [UInt16.lt_iff_toNat_lt] at hlt
  by_cases hle : s.notesCount ≤ s.currentNote + 1
  · refine .inr ⟨?_, if_pos hle, ?_⟩
    · by_contra hrepeat
      exact hend ⟨hle, hrepeat⟩
    · rw [UInt16.le_iff_toNat_le] at hle
      omega
  · refine .inl ⟨if_neg hle, ?_⟩
    rw [UInt16.le_iff_toNat_le] at hle
    omega

omit [DecidableEq Pitch] in
theorem nextIndex_lt (hlt : s.currentNote < s.notesCount)
    (hend : ¬ (s.notesCount ≤ s.currentNote + 1 ∧ ¬ s.notesRepeat = true)) : s.nextIndex < s.notesCount := by
  have hsucc := toNat_succ hlt
  rcases nextIndex_cases hlt hend with ⟨heq, hmore⟩ | ⟨-, heq, hlast⟩
  · rw [heq, UInt16.lt_iff_toNat_lt, hsucc]
    exact hmore
  · rw [heq, UInt16.lt_iff_toNat_lt, ← hlast]
    exact Nat.succ_pos _

theorem nextNoteAt_eq (hlt : s.currentNote < s.notesCount)
    (hend : ¬ (s.notesCount ≤ s.currentNote + 1 ∧ ¬ s.notesRepeat = true)) (r : TimerReads) :
    s.nextNoteAt cfg r = .ok
      (if ¬ s.noteResting ∧ (s.notes s.currentNote.toNat).1 = (s.notes s.nextIndex.toNat).1 then
        ((s.restNote cfg r.current).1, some (.rest s.currentNote.toNat, (s.restNote cfg r.current).2))
      else
        let (t, note) := s.startNote cfg r.current (r.overshoot - s.lastTimestamp - s.melodyCurrentNoteDuration) s.nextIndex
        (t, some (.note t.currentNote.toNat, note))) := by
  have hnext := nextIndex_lt hlt hend
  obtain ⟨delta, i, duration, hskip, -, hi⟩ := skipMissedAt_spec cfg
    (r.overshoot - s.lastTimestamp - s.melodyCurrentNoteDuration) hnext
  have hskip' := hskip
  rw [skipMissedAt_eq hnext] at hskip'
  rw [nextNoteAt]
  simp only [if_neg hend]
  change (s.pitchAgain s.currentNote s.nextIndex >>= _) = _
  rw [pitchAgain_spec hlt hnext]
  by_cases hagain : ¬ s.noteResting = true ∧ (s.notes s.currentNote.toNat).1 = (s.notes s.nextIndex.toNat).1
  · rw [if_pos hagain, decide_eq_true hagain.2, Bool.eq_false_iff.mpr hagain.1]
    rfl
  · have hnot : (!s.noteResting && decide ((s.notes s.currentNote.toNat).1 = (s.notes s.nextIndex.toNat).1)) = false := by
      rw [Bool.and_eq_false_iff, Bool.not_eq_false', decide_eq_false_iff_not]
      by_cases hresting : s.noteResting = true
      · exact .inl hresting
      · exact .inr fun hpitch => hagain ⟨hresting, hpitch⟩
    rw [if_neg hagain, hnot]
    change (s.skipMissedAt cfg _ s.nextIndex >>= _) = _
    rw [hskip]
    change (s.readNote i >>= _) = _
    rw [readNote_of_lt hi, startNote, Except.ok.inj hskip']
    rfl

theorem nextNoteAt_spec (cfg : AudioConfig Pitch) {event : MelodyEvent} (h : s.At event) (r : TimerReads) :
    (s.notesRepeat = false ∧ s.notesCount ≤ s.currentNote + 1 ∧ s.nextNoteAt cfg r =
        .ok ({ s with lastTimestamp := r.current, currentNote := s.currentNote + 1 }, none)) ∨
      ¬ (s.notesRepeat = false ∧ s.notesCount ≤ s.currentNote + 1) ∧ ∃ t event' pitch duration,
        s.nextNoteAt cfg r = .ok (t, some (event', pitch, duration)) ∧ t.At event' ∧
        Follows s.notes s.notesCount.toNat s.notesRepeat event event' ∧
        t.notes = s.notes ∧ t.notesCount = s.notesCount ∧ t.notesRepeat = s.notesRepeat ∧
        t.playingMelody = s.playingMelody := by
  obtain ⟨hlt, hevent⟩ := h
  by_cases hend : s.notesCount ≤ s.currentNote + 1 ∧ ¬ s.notesRepeat = true
  · refine .inl ⟨Bool.eq_false_iff.mpr hend.2, hend.1, ?_⟩
    rw [nextNoteAt]
    simp only [if_pos hend]
  · refine .inr ⟨fun hlast => hend ⟨hlast.2, Bool.eq_false_iff.mp hlast.1⟩, ?_⟩
    have hnext := nextIndex_lt hlt hend
    have hwrap := nextIndex_cases hlt hend
    rw [nextNoteAt_eq hlt hend]
    by_cases hagain : ¬ s.noteResting = true ∧ (s.notes s.currentNote.toNat).1 = (s.notes s.nextIndex.toNat).1
    · rw [if_pos hagain]
      refine ⟨{ s with
          lastTimestamp := r.current
          noteResting := true
          melodyCurrentNoteDuration := cfg.durationToMs 2 }, .rest s.currentNote.toNat, cfg.restPitch,
        cfg.durationToMs 2, rfl, ⟨hlt, (if_pos rfl).symm⟩, ?_, rfl, rfl, rfl, rfl⟩
      rw [hevent, if_neg hagain.1]
      refine ⟨rfl, ?_⟩
      rcases hwrap with ⟨heq, hmore⟩ | ⟨hrepeat, heq, hlast⟩
      · exact .inl ⟨hmore, by rw [hagain.2, heq, toNat_succ hlt]⟩
      · refine .inr ⟨hrepeat, hlast, ?_⟩
        rw [hagain.2, heq]
        rfl
    · rw [if_neg hagain]
      obtain ⟨delta, i, duration, hskip, hle, hi⟩ := skipMissedAt_spec cfg
        (r.overshoot - s.lastTimestamp - s.melodyCurrentNoteDuration) hnext
      rw [skipMissedAt_eq hnext] at hskip
      rw [startNote, Except.ok.inj hskip]
      refine ⟨_, _, _, _, rfl, ⟨hi, (if_neg Bool.false_ne_true).symm⟩, ⟨UInt16.lt_iff_toNat_lt.mp hi, ?_⟩, rfl, rfl, rfl, rfl⟩
      have hindex : event.index = s.currentNote.toNat := by
        rw [hevent]
        split <;> rfl
      have hsucc := toNat_succ hlt
      rw [hindex]
      rw [UInt16.le_iff_toNat_le] at hle
      rcases hwrap with ⟨heq, hmore⟩ | ⟨hrepeat, -, hlast⟩
      · rw [heq] at hle
        exact .inl (Nat.lt_of_lt_of_le (Nat.lt_of_lt_of_eq (Nat.lt_succ_self _) hsucc.symm) hle)
      · exact .inr ⟨hrepeat, hlast⟩

omit [DecidableEq Pitch] in
theorem LastNoteEnds.playing {r : TimerReads} (h : s.LastNoteEnds r) : s.playingMelody = true := by
  have hdue := h.1
  rw [melodyDue, Bool.and_eq_true] at hdue
  exact hdue.1

theorem update_last (cfg : AudioConfig Pitch) {r : TimerReads} (h : s.LastNoteEnds r) (effects : Bool) :
    ∃ s', s.audioUpdateStateAt cfg r effects = .ok (false, none, s') ∧
      (s'.playingMelody = false ↔ s.driverStopped = false) := by
  have hplaying := h.playing
  obtain ⟨hdue, hrepeat, hlast⟩ := h
  have hnext : s.nextNoteAt cfg r =
      .ok ({ s with lastTimestamp := r.current, currentNote := s.currentNote + 1 }, none) := by
    rw [nextNoteAt]
    simp only [hlast, hrepeat, true_and, Bool.false_eq_true, not_false_eq_true, if_true]
  refine ⟨audioStopAll cfg { s with lastTimestamp := r.current, currentNote := s.currentNote + 1 }, ?_, ?_⟩
  · rw [audioUpdateStateAt, if_neg (fun hidle => hidle.2 hplaying), if_pos hdue, hnext]
  · rw [audioStopAll]
    cases hdriver : s.driverStopped with
    | true => simp only [if_true, hplaying, Bool.true_eq_false]
    | false => simp only [Bool.false_eq_true, if_false]

/-- While the melody plays, it is at the newest event; the events follow one another. -/
structure Kept (notes : Nat → Pitch × UInt16) (n : UInt16) (notesRepeat : Bool) (s : AudioState Pitch)
    (log : List MelodyEvent) : Prop where
  song : s.playingMelody = true → s.notes = notes ∧ s.notesCount = n ∧ s.notesRepeat = notesRepeat ∧
    ∃ event, log.head? = some event ∧ s.At event
  ordered : log.IsChain fun later earlier => Follows notes n.toNat notesRepeat earlier later

namespace Kept

variable {notes : Nat → Pitch × UInt16} {n : UInt16} {notesRepeat : Bool} {log : List MelodyEvent}

omit [DecidableEq Pitch] in
theorem of_melody {t : AudioState Pitch} (h : Kept notes n notesRepeat s log) (hmelody : t.melody = s.melody) :
    Kept notes n notesRepeat t log where
  song hplaying := by
    have hnotes : t.notes = s.notes := congrArg Melody.notes hmelody
    have hcount : t.notesCount = s.notesCount := congrArg Melody.notesCount hmelody
    have hrepeat : t.notesRepeat = s.notesRepeat := congrArg Melody.notesRepeat hmelody
    have hcurrent : t.currentNote = s.currentNote := congrArg Melody.currentNote hmelody
    have hresting : t.noteResting = s.noteResting := congrArg Melody.noteResting hmelody
    obtain ⟨hsong, hn, hrep, event, hhead, hat⟩ := h.song ((congrArg Melody.playing hmelody).symm.trans hplaying)
    refine ⟨hnotes.trans hsong, hcount.trans hn, hrepeat.trans hrep, event, hhead, ?_⟩
    rw [At, hcurrent, hcount, hresting]
    exact hat
  ordered := h.ordered

omit [DecidableEq Pitch] in
theorem stopped (h : Kept notes n notesRepeat s log) {t : AudioState Pitch} (hplaying : t.playingMelody = false) :
    Kept notes n notesRepeat t log :=
  ⟨fun hplaying' => absurd (hplaying.symm.trans hplaying') Bool.false_ne_true, h.ordered⟩

theorem update (h : Kept notes n notesRepeat s log) {r : TimerReads} (hlast : ¬ s.LastNoteEnds r) (effects : Bool) :
    s.audioUpdateStateAt cfg r effects = .error .divisionByZero ∧ cfg.multiplexing = true ∨
      ∃ updated event s', s.audioUpdateStateAt cfg r effects = .ok (updated, event, s') ∧
        s'.playingMelody = s.playingMelody ∧ Kept notes n notesRepeat s' (event.toList ++ log) := by
  by_cases hidle : ¬ s.playingNote = true ∧ ¬ s.playingMelody = true
  · refine .inr ⟨false, none, s, ?_, rfl, h⟩
    rw [audioUpdateStateAt, if_pos hidle]
  · by_cases hdue : s.melodyDue r.elapsed = true
    · have hplaying : s.playingMelody = true := by
        rw [melodyDue, Bool.and_eq_true] at hdue
        exact hdue.1
      obtain ⟨rfl, rfl, rfl, event, hhead, hat⟩ := h.song hplaying
      rcases nextNoteAt_spec cfg hat r with ⟨hrepeat, hend, -⟩ | ⟨-, t, event', pitch, duration, hnext, hat',
        hfollows, hnotes, hcount, hrep, hplaying'⟩
      · exact absurd ⟨hdue, hrepeat, hend⟩ hlast
      · have hkept : Kept s.notes s.notesCount s.notesRepeat t (event' :: log) := by
          refine ⟨fun _ => ⟨hnotes, hcount, hrep, event', rfl, hat'⟩, ?_⟩
          obtain ⟨earlier, hlog⟩ := List.head?_eq_some_iff.mp hhead
          rw [hlog]
          exact .cons_cons hfollows (hlog ▸ h.ordered)
        rw [audioUpdateStateAt, if_neg hidle, if_pos hdue, hnext]
        simp only
        rcases updateNotesAt_cases cfg (t.audioPlayNote cfg r.started pitch duration) r true effects with
          ⟨hfault, hmultiplexing⟩ | ⟨updated, t', hok, hmelody⟩
        · refine .inl ⟨?_, hmultiplexing⟩
          rw [hfault]
          rfl
        · have hmelody' := hmelody.trans (melody_playNote cfg t r.started pitch duration)
          refine .inr ⟨updated, some event', t', by rw [hok]; rfl, ?_, hkept.of_melody hmelody'⟩
          exact (congrArg Melody.playing hmelody').trans hplaying'
    · rw [audioUpdateStateAt, if_neg hidle, if_neg hdue]
      rcases updateNotesAt_cases cfg s r false effects with ⟨hfault, hmultiplexing⟩ | ⟨updated, t, hok, hmelody⟩
      · refine .inl ⟨?_, hmultiplexing⟩
        rw [hfault]
        rfl
      · exact .inr ⟨updated, none, t, by rw [hok]; rfl, congrArg Melody.playing hmelody, h.of_melody hmelody⟩

end Kept
end AudioState

section Run

open AudioState

variable {cfg} {s : AudioState Pitch} {notes : Nat → Pitch × UInt16} {n : UInt16} {notesRepeat : Bool}
  {log : List MelodyEvent}

theorem AudioState.playMelodyAt_kept (started stamp : UInt16) (henabled : s.enabled = true) (hn : 0 < n) :
    Kept notes n notesRepeat (s.audioPlayMelodyAt cfg started stamp notes n notesRepeat) [.note 0] := by
  have hne : n ≠ 0 := fun hzero => absurd hn (by rw [hzero]; exact UInt16.lt_irrefl 0)
  obtain ⟨t, ht⟩ : ∃ t, t = if s.playingNote then s.audioStopAll cfg else s := ⟨_, rfl⟩
  rw [audioPlayMelodyAt, if_neg (not_not.mpr henabled), if_neg hne]
  simp only [← ht]
  have hmelody := melody_playNote cfg { t with
    playingMelody := true
    noteResting := false
    notes := notes
    notesCount := n
    notesRepeat := notesRepeat
    currentNote := 0 } started (notes 0).1 (cfg.durationToMs (notes 0).2)
  refine ⟨fun _ => ⟨?_, ?_, ?_, .note 0, rfl, ?_, ?_⟩, .singleton _⟩
  · exact congrArg Melody.notes hmelody
  · exact congrArg Melody.notesCount hmelody
  · exact congrArg Melody.notesRepeat hmelody
  · have hcurrent := congrArg Melody.currentNote hmelody
    have hcount := congrArg Melody.notesCount hmelody
    simp only [melody] at hcurrent hcount
    simp only [hcurrent, hcount]
    exact hn
  · have hcurrent := congrArg Melody.currentNote hmelody
    have hresting := congrArg Melody.noteResting hmelody
    simp only [melody] at hcurrent hresting
    simp only [hcurrent, hresting, Bool.false_eq_true, if_false]
    rfl

theorem MelodyRun.kept (h : MelodyRun cfg notes n notesRepeat DriverRuns s log) : Kept notes n notesRepeat s log := by
  induction h with
  | play started stamp henabled hn => exact playMelodyAt_kept started stamp henabled hn
  | @update s s' log r effects updated event _ hdriver hupdate ih =>
    by_cases hlast : s.LastNoteEnds r
    · obtain ⟨t, hok, hstops⟩ := update_last cfg hlast effects
      rw [hok] at hupdate
      cases hupdate
      exact ih.stopped (hstops.mpr (hdriver hlast))
    · rcases ih.update hlast effects with ⟨hfault, -⟩ | ⟨updated', event', t, hok, -, hkept⟩
      · rw [hfault] at hupdate
        cases hupdate
      · rw [hok] at hupdate
        cases hupdate
        exact hkept

namespace AudioState

variable {now : UInt16}

theorem expireAt_const (n i : Nat) (s : AudioState Pitch) :
    expireAt cfg (fun _ => now) n i s = expireLoop cfg now n i s := by
  induction n generalizing i s with
  | zero => rfl
  | succ n ih => rw [expireAt, expireLoop, ih]

theorem updateNotesAt_const (s : AudioState Pitch) (gotoNextNote effects : Bool) :
    (s.updateNotesAt cfg (.const now) gotoNextNote effects).toOption = s.updateNotes cfg now gotoNextNote effects := by
  rw [updateNotesAt, updateNotes]
  split
  · change (match s.multiplex cfg now with
      | none => .error .divisionByZero
      | some s => .ok ((expireAt cfg (fun _ => now) s.activeTones 0 s).reportUpdate
        (gotoNextNote || cfg.multiplexing || effects)) : Except MelodyFault (Bool × AudioState Pitch)).toOption = _
    cases s.multiplex cfg now with
    | none => rfl
    | some t =>
      simp only [expireAt_const, Option.map_some]
      rfl
  · rfl

omit [DecidableEq Pitch] in
theorem toOption_map_event (x : Except MelodyFault (Bool × AudioState Pitch)) (event : Option MelodyEvent) :
    (x.map fun (update, s) => (update, event, s)).toOption.map (fun result => (result.1, result.2.2)) = x.toOption := by
  cases x <;> rfl

theorem audioUpdateStateAt_const (h : s.playingMelody = true → s.currentNote < s.notesCount) (effects : Bool) :
    (s.audioUpdateStateAt cfg (.const now) effects).toOption.map (fun result => (result.1, result.2.2)) =
      s.audioUpdateState cfg now effects := by
  rw [audioUpdateStateAt, audioUpdateState]
  split
  · rfl
  · change (if s.melodyDue now = true then _ else _ : Except MelodyFault _).toOption.map _ = _
    by_cases hdue : s.melodyDue now = true
    · have hplaying : s.playingMelody = true := by
        rw [melodyDue, Bool.and_eq_true] at hdue
        exact hdue.1
      rw [if_pos hdue, if_pos hdue, nextNote]
      by_cases hend : s.notesCount ≤ s.currentNote + 1 ∧ ¬ s.notesRepeat = true
      · rw [nextNoteAt]
        simp only [if_pos hend]
        rfl
      · rw [nextNoteAt_eq (h hplaying) hend]
        simp only [if_neg hend]
        by_cases hagain : ¬ s.noteResting = true ∧
            (s.notes s.currentNote.toNat).1 = (s.notes s.nextIndex.toNat).1
        · rw [if_pos hagain]
          simp only [nextIndex] at hagain
          rw [if_pos hagain]
          exact (toOption_map_event _ _).trans (updateNotesAt_const _ true effects)
        · rw [if_neg hagain]
          simp only [nextIndex] at hagain
          rw [if_neg hagain]
          exact (toOption_map_event _ _).trans (updateNotesAt_const _ true effects)
    · rw [if_neg hdue, if_neg hdue]
      exact (toOption_map_event _ _).trans (updateNotesAt_const s false effects)

end AudioState

/-- In a run where the driver runs at the end of the last note, the events follow one another; each further update
reads the array within its bounds, ends the melody behind the last note if the driver runs, and never before. -/
theorem melody_stays_and_ends {cfg : AudioConfig Pitch} {s : AudioState Pitch} {notes : Nat → Pitch × UInt16}
    {n : UInt16} {notesRepeat : Bool} {log : List MelodyEvent} (h : MelodyRun cfg notes n notesRepeat DriverRuns s log) :
    log.IsChain (fun later earlier => Follows notes n.toNat notesRepeat earlier later) ∧
      ∀ r effects, s.audioUpdateStateAt cfg r effects ≠ .error .outOfBounds ∧
        (s.LastNoteEnds r → ∃ s', s.audioUpdateStateAt cfg r effects = .ok (false, none, s') ∧
          (s'.playingMelody = false ↔ s.driverStopped = false)) ∧
        ∀ updated event s', s.audioUpdateStateAt cfg r effects = .ok (updated, event, s') → ¬ s.LastNoteEnds r →
          s'.playingMelody = s.playingMelody := by
  have hkept := h.kept
  refine ⟨hkept.ordered, fun r effects => ⟨?_, fun hlast => update_last cfg hlast effects, ?_⟩⟩
  · by_cases hlast : s.LastNoteEnds r
    · obtain ⟨t, hok, -⟩ := update_last cfg hlast effects
      rw [hok]
      intro heq
      cases heq
    · rcases hkept.update hlast effects with ⟨hfault, -⟩ | ⟨updated, event, t, hok, -⟩
      · rw [hfault]
        intro heq
        cases heq
      · rw [hok]
        intro heq
        cases heq
  · intro updated event s' hupdate hlast
    rcases hkept.update hlast effects with ⟨hfault, -⟩ | ⟨updated', event', t, hok, hplaying, -⟩
    · rw [hfault] at hupdate
      cases hupdate
    · rw [hok] at hupdate
      cases hupdate
      exact hplaying

end Run

namespace AudioState

def beep : Nat → Int × UInt16 := fun _ => (440, 64)

/-- Two notes with the rest between them; then the song ends. -/
theorem melody_two_beeps_end : ∃ (log : List MelodyEvent) (s s' : AudioState Int),
    MelodyRun (hertz false) beep 2 false DriverRuns s log ∧ log = [.note 1, .rest 0, .note 0] ∧
    s.audioUpdateStateAt (hertz false) (.const 1015) false = .ok (false, none, s') ∧ s'.playingMelody = false := by
  have hplay : MelodyRun (hertz false) beep 2 false DriverRuns (idle.audioPlayMelodyAt (hertz false) 0 0 beep 2 false)
      [.note 0] := .play 0 0 rfl (by decide)
  have hgoing := hplay.update (by decide)
    (rfl : audioUpdateStateAt (hertz false) _ (.const 250) false = .ok (true, none, _))
  have hrest := hgoing.update (by decide)
    (rfl : audioUpdateStateAt (hertz false) _ (.const 500) false = .ok (true, some (.rest 0), _))
  have hnote := hrest.update (by decide)
    (by with_unfolding_all rfl : audioUpdateStateAt (hertz false) _ (.const 515) false = .ok (true, some (.note 1), _))
  obtain ⟨s', hok, hstops⟩ := ((melody_stays_and_ends hnote).2 (.const 1015) false).2.1 (by decide +kernel)
  exact ⟨_, _, s', hnote, rfl, hok, hstops.mpr rfl⟩

/-- The timer goes on between the two times of the note: its tone expires in an update that finds it unfinished, and
the next one finds the driver stopped. -/
theorem melody_beep_never_ends :
    ¬ ∀ (s : AudioState Int) (log : List MelodyEvent), MelodyRun (hertz false) beep 1 false (fun _ _ => True) s log →
      ∀ r effects, s.LastNoteEnds r →
        ∃ s', s.audioUpdateStateAt (hertz false) r effects = .ok (false, none, s') ∧ s'.playingMelody = false := by
  intro hends
  have hplay : MelodyRun (hertz false) beep 1 false (fun _ _ => True)
      (idle.audioPlayMelodyAt (hertz false) 0 1 beep 1 false) [.note 0] := .play 0 1 rfl (by decide)
  obtain ⟨updated, event, s, hexpired, hlast, hdriver⟩ : ∃ updated event s,
      (idle.audioPlayMelodyAt (hertz false) 0 1 beep 1 false).audioUpdateStateAt (hertz false) (.const 500) false =
        .ok (updated, event, s) ∧ s.LastNoteEnds (.const 501) ∧ s.driverStopped = true :=
    ⟨_, _, _, rfl, by decide, by decide⟩
  obtain ⟨s', hok, hstopped⟩ := hends s _ (hplay.update trivial hexpired) (.const 501) false hlast
  obtain ⟨t, hok', hstops⟩ := update_last (hertz false) hlast false
  rw [hok] at hok'
  cases hok'
  rw [hstops.mp hstopped] at hdriver
  cases hdriver

end AudioState

end Audio
end VialQmk
