import VialQmk.Audio.ToneStackInv

/-!
# Audio.ToneRuns

Runs of the calls of `audio.h` on the stack of tones.

* `expireLoop_stack`: the loop that stops tones passes over the one behind each tone it stops.
* `expireList_clean_iff`: it leaves no expired tone just where no two of them are next to each other.
* `call_meets`: the step lemma, and `tone_stack_run` for runs whose calls all meet their condition.
-/

namespace VialQmk
namespace Audio

open Lib

variable {Pitch : Type} {cfg : AudioConfig Pitch} {now : UInt16}

def expireList (now : UInt16) : List (Tone Pitch) → List (Tone Pitch)
  | [] => []
  | [tone] => if tone.Expired now then [] else [tone]
  | tone :: next :: rest =>
    if tone.Expired now then next :: expireList now rest else tone :: expireList now (next :: rest)

variable {tone : Tone Pitch}

theorem expireList_cons_of_not (h : ¬ tone.Expired now) (rest : List (Tone Pitch)) :
    expireList now (tone :: rest) = tone :: expireList now rest := by
  cases rest with
  | nil => simp [expireList, h]
  | cons next rest => simp [expireList, h]

theorem expireList_sublist (tones : List (Tone Pitch)) : (expireList now tones).Sublist tones := by
  fun_induction expireList now tones with
  | case1 => exact .slnil
  | case2 tone _ => exact List.nil_sublist _
  | case3 tone _ => exact List.Sublist.refl _
  | case4 tone next rest _ ih => exact (ih.cons_cons next).cons tone
  | case5 tone next rest _ ih => exact ih.cons_cons tone

theorem mem_expireList {tones : List (Tone Pitch)} (hmem : tone ∈ tones) (h : ¬ tone.Expired now) :
    tone ∈ expireList now tones := by
  fun_induction expireList now tones with
  | case1 => cases hmem
  | case2 first hfirst =>
    rw [List.mem_singleton] at hmem
    exact absurd (hmem ▸ hfirst) h
  | case3 first _ => exact hmem
  | case4 first next rest hfirst ih =>
    rw [List.mem_cons, List.mem_cons] at hmem
    rw [List.mem_cons]
    rcases hmem with rfl | hmem
    · exact absurd hfirst h
    · exact hmem.imp_right ih
  | case5 first next rest _ ih =>
    rw [List.mem_cons] at hmem ⊢
    exact hmem.imp_right ih

def Apart (now : UInt16) (tones : List (Tone Pitch)) : Prop :=
  tones.IsChain fun tone next => ¬ (tone.Expired now ∧ next.Expired now)

theorem apart_cons_of_not {rest : List (Tone Pitch)} (h : ¬ tone.Expired now) :
    Apart now (tone :: rest) ↔ Apart now rest := by
  cases rest with
  | nil => simp [Apart]
  | cons next rest => simp [Apart, h]

theorem expireList_clean_iff (tones : List (Tone Pitch)) :
    (∀ tone ∈ expireList now tones, ¬ tone.Expired now) ↔ Apart now tones := by
  fun_induction expireList now tones with
  | case1 => simp [Apart]
  | case2 tone _ => simp [Apart]
  | case3 tone htone => simp [Apart, htone]
  | case4 tone next rest htone ih =>
    rw [Apart, List.isChain_cons_cons, List.forall_mem_cons, ih]
    by_cases hnext : next.Expired now
    · simp [htone, hnext]
    · have hrest : Apart now (next :: rest) ↔ Apart now rest := apart_cons_of_not hnext
      simpa [hnext, Apart] using hrest.symm
  | case5 tone next rest htone ih =>
    rw [List.forall_mem_cons, ih, apart_cons_of_not htone]
    exact and_iff_right htone

theorem elapsed_lt (hd : tone.duration ≠ 0) (h : ¬ tone.Expired now) (hfinite : tone.duration ≠ 0xffff) :
    now - tone.timeStarted < tone.duration := by
  rw [← UInt16.not_le]
  exact fun hle => h ⟨hfinite, hd, hle⟩

theorem not_expired_now {pitch : Pitch} {duration : UInt16} : ¬ (⟨now, pitch, duration⟩ : Tone Pitch).Expired now := by
  rintro ⟨-, hd, hle⟩
  rw [UInt16.sub_self] at hle
  exact hd (UInt16.le_zero_iff.mp hle)

section Update

variable [DecidableEq Pitch] {s t : AudioState Pitch} {log : List Pitch}

namespace AudioState

theorem expireLoop_of_le {n i : Nat} (h : s.activeTones ≤ i) : expireLoop cfg now n i s = s := by
  cases n with
  | zero => rfl
  | succ n => exact if_neg (Nat.not_lt_of_le h)

theorem expireLoop_stack {n i : Nat} {front rest : List (Tone Pitch)} (h : Stacked cfg log s)
    (hstack : s.stack = front ++ rest) (hfront : front.length = i) (hn : s.activeTones ≤ i + n) :
    (expireLoop cfg now n i s).stack = front ++ expireList now rest ∧
      Stacked cfg log (expireLoop cfg now n i s) := by
  induction n generalizing i s front rest with
  | zero =>
    have hlength := congrArg List.length hstack
    rw [length_stack, List.length_append] at hlength
    have hrest : rest = [] := List.length_eq_zero_iff.mp (by omega)
    subst hrest
    exact ⟨hstack, h⟩
  | succ n ih =>
    have hlength := congrArg List.length hstack
    rw [length_stack, List.length_append] at hlength
    cases rest with
    | nil =>
      rw [expireLoop_of_le (by simp at hlength; omega)]
      exact ⟨hstack, h⟩
    | cons tone rest =>
      have hi : i < s.activeTones := by
        rw [List.length_cons] at hlength
        omega
      have htone : s.tones i = tone := by
        rw [← stack_getElem (by simpa using hi)]
        simp [hstack, ← hfront]
      rw [expireLoop, if_pos hi, htone]
      by_cases hexpired : tone.Expired now
      · rw [if_pos hexpired]
        have hstop : (s.audioStopTone cfg tone.pitch).stack = front ++ rest := by
          rw [← htone, stopTone_stack h hi, hstack, ← hfront, List.eraseIdx_append_of_length_le (Nat.le_refl _)]
          simp
        have hactive := congrArg List.length hstop
        rw [length_stack, List.length_append] at hactive
        rw [List.length_cons] at hlength
        cases rest with
        | nil =>
          rw [expireLoop_of_le (by simp at hactive; omega), hstop]
          simpa [expireList, hexpired] using stopTone_stacked h tone.pitch
        | cons next rest =>
          -- The next tone is in the slot that the loop is done with.
          have hmoved : (s.audioStopTone cfg tone.pitch).stack = (front ++ [next]) ++ rest := by simp [hstop]
          have hfront' : (front ++ [next]).length = i + 1 := by simp [hfront]
          have hnext := ih (stopTone_stacked h tone.pitch) hmoved hfront' (by omega)
          simpa [expireList, hexpired] using hnext
      · rw [if_neg hexpired, expireList_cons_of_not hexpired]
        have hmoved : s.stack = (front ++ [tone]) ++ rest := by simp [hstack]
        have hfront' : (front ++ [tone]).length = i + 1 := by simp [hfront]
        have hnext := ih h hmoved hfront' (by omega)
        simpa using hnext

structure SameTones (s t : AudioState Pitch) : Prop where
  activeTones : t.activeTones = s.activeTones
  tones : t.tones = s.tones
  playingNote : t.playingNote = s.playingNote
  driverStopped : t.driverStopped = s.driverStopped
  enabled : t.enabled = s.enabled

omit [DecidableEq Pitch] in
theorem SameTones.stack (h : SameTones s t) : t.stack = s.stack := by
  rw [AudioState.stack, h.activeTones, h.tones]
  rfl

theorem SameTones.stacked (h : SameTones s t) (hs : Stacked cfg log s) : Stacked cfg log t := by
  have hpitches : t.pitches = s.pitches := by rw [pitches, h.stack, pitches]
  refine ⟨⟨?_, ?_, ?_, ?_⟩, ?_, ?_⟩
  · rw [h.activeTones]
    exact hs.active_le
  · rw [h.activeTones, h.tones]
    exact hs.empty
  · rw [h.playingNote, h.activeTones]
    exact hs.playing
  · rw [h.driverStopped, h.activeTones]
    exact hs.driver
  · rw [hpitches]
    exact hs.inOrder
  · rw [hpitches]
    exact hs.norm

omit [DecidableEq Pitch] in
theorem durationToMs_two : cfg.durationToMs 2 ≠ 0 := by
  have hge := cfg.noteTempo_ge
  have hlt := cfg.noteTempo.toNat_lt
  have hpos : 0 < 2 * 1875 / (cfg.noteTempo.toNat * 2) := Nat.div_pos (by omega) (by omega)
  have hle : 2 * 1875 / (cfg.noteTempo.toNat * 2) ≤ 2 * 1875 := Nat.div_le_self _ _
  intro h
  have hnat : 2 * 1875 / (cfg.noteTempo.toNat * 2) % 2 ^ 16 = 0 := congrArg UInt16.toNat h
  omega

theorem nextNote_spec (s : AudioState Pitch) :
    SameTones s (s.nextNote cfg now).1 ∧
      (s.nextNote cfg now).1.toneMultiplexingRate = s.toneMultiplexingRate ∧
      ∀ note, (s.nextNote cfg now).2 = some note → note.2 ≠ 0 := by
  have hrest : SameTones s (s.restNote cfg now).1 ∧
      (s.restNote cfg now).1.toneMultiplexingRate = s.toneMultiplexingRate ∧ (s.restNote cfg now).2.2 ≠ 0 := by
    rw [restNote]
    exact ⟨⟨rfl, rfl, rfl, rfl, rfl⟩, rfl, durationToMs_two⟩
  have hstart : ∀ delta currentNote, SameTones s (s.startNote cfg now delta currentNote).1 ∧
      (s.startNote cfg now delta currentNote).1.toneMultiplexingRate = s.toneMultiplexingRate ∧
      (s.startNote cfg now delta currentNote).2.2 ≠ 0 := by
    intro delta currentNote
    rw [startNote]
    obtain ⟨delta, currentNote, duration⟩ := skipMissed cfg s.notes s.notesCount delta currentNote
    refine ⟨⟨rfl, rfl, rfl, rfl, rfl⟩, rfl, ?_⟩
    dsimp only
    split
    · rename_i hlt
      intro h
      rw [UInt16.sub_eq_iff_eq_add, UInt16.zero_add] at h
      exact absurd hlt (h ▸ UInt16.lt_irrefl _)
    · decide
  rw [nextNote]
  dsimp only
  by_cases hend : s.notesCount ≤ s.currentNote + 1 ∧ ¬ s.notesRepeat
  · rw [if_pos hend]
    exact ⟨⟨rfl, rfl, rfl, rfl, rfl⟩, rfl, fun note h => nomatch h⟩
  · rw [if_neg hend]
    dsimp only
    by_cases hsame : ¬ s.noteResting ∧ (s.notes s.currentNote.toNat).1 =
        (s.notes (if s.notesCount ≤ s.currentNote + 1 then 0 else s.currentNote + 1).toNat).1
    · rw [if_pos hsame]
      obtain ⟨htones, hrate, hlong⟩ := hrest
      exact ⟨htones, hrate, fun note h => Option.some.inj h ▸ hlong⟩
    · rw [if_neg hsame]
      obtain ⟨htones, hrate, hlong⟩ := hstart (now - s.lastTimestamp - s.melodyCurrentNoteDuration)
        (if s.notesCount ≤ s.currentNote + 1 then 0 else s.currentNote + 1)
      exact ⟨htones, hrate, fun note h => Option.some.inj h ▸ hlong⟩

/-- The pitch is not on top of the stack, where it would not be restarted, or is there as it is to be. -/
def Restarts (cfg : AudioConfig Pitch) (s : AudioState Pitch) (now : UInt16) (note : Pitch × UInt16) : Prop :=
  ∀ top, s.stack.getLast? = some top → top.pitch = cfg.norm note.1 → top = ⟨now, cfg.norm note.1, note.2⟩

def melodyNote (cfg : AudioConfig Pitch) (s : AudioState Pitch) (now : UInt16) : Option (Pitch × UInt16) :=
  if s.melodyDue now then (s.nextNote cfg now).2 else none

/-- The state that the melody leaves to the rest of an update. -/
def afterMelody (cfg : AudioConfig Pitch) (s : AudioState Pitch) (now : UInt16) : AudioState Pitch :=
  if s.melodyDue now then
    match s.nextNote cfg now with
    | (s, none) => s.audioStopAll cfg
    | (s, some (pitch, duration)) => s.audioPlayNote cfg now pitch duration
  else s

/-- A note has a duration and restarts its pitch. An update finds no two expired tones next to each other and, while
tones are played in turn, neither the rate nor the number of tones zero. -/
def Meets (cfg : AudioConfig Pitch) (s : AudioState Pitch) (now : UInt16) : AudioCall Pitch → Prop
  | .playNote pitch duration => s.enabled → duration ≠ 0 ∧ Restarts cfg s now (pitch, duration)
  | .playTone pitch => s.enabled → Restarts cfg s now (pitch, 0xffff)
  | .playMelody notes notesCount _ => s.enabled → notesCount ≠ 0 → cfg.durationToMs (notes 0).2 ≠ 0
  | .updateState _ =>
    (s.enabled → ∀ note, melodyNote cfg s now = some note → Restarts cfg s now note) ∧
    ((afterMelody cfg s now).playingNote → Apart now (afterMelody cfg s now).stack ∧
      (cfg.multiplexing → s.toneMultiplexingRate ≠ 0 ∧ cfg.maxSimultaneousTones ≠ 0))
  | _ => True

def played (cfg : AudioConfig Pitch) (s : AudioState Pitch) (now : UInt16) :
    AudioCall Pitch → Option (Pitch × UInt16)
  | .playNote pitch duration => if s.enabled then some (pitch, duration) else none
  | .playTone pitch => if s.enabled then some (pitch, 0xffff) else none
  | .playMelody notes notesCount _ =>
    if s.enabled ∧ notesCount ≠ 0 then some ((notes 0).1, cfg.durationToMs (notes 0).2) else none
  | .updateState _ => if s.enabled then melodyNote cfg s now else none
  | _ => none

def playedPitches (cfg : AudioConfig Pitch) (s : AudioState Pitch) (now : UInt16) (c : AudioCall Pitch) : List Pitch :=
  (played cfg s now c).toList.map fun note => cfg.norm note.1

/-- What holds behind a call: the invariant, a note that was played starts now, and an update leaves no tone whose
duration has elapsed. -/
structure CallOk (cfg : AudioConfig Pitch) (log : List Pitch) (s : AudioState Pitch) (now : UInt16)
    (c : AudioCall Pitch) (t : AudioState Pitch) : Prop where
  stacked : Stacked cfg (log ++ playedPitches cfg s now c) t
  restarted : ∀ note, played cfg s now c = some note → ⟨now, cfg.norm note.1, note.2⟩ ∈ t.stack
  expired : ∀ effects, c = .updateState effects →
    ∀ tone ∈ t.stack, tone.duration ≠ 0xffff → now - tone.timeStarted < tone.duration

def Lasting (s : AudioState Pitch) : Prop := ∀ tone ∈ s.stack, tone.duration ≠ 0

variable {c : AudioCall Pitch}

theorem CallOk.of_silent (hplayed : played cfg s now c = none) (hstacked : Stacked cfg log t)
    (hexpired : ∀ effects, c = .updateState effects →
      ∀ tone ∈ t.stack, tone.duration ≠ 0xffff → now - tone.timeStarted < tone.duration) :
    CallOk cfg log s now c t := by
  refine ⟨?_, ?_, hexpired⟩
  · rw [playedPitches, hplayed]
    simpa using hstacked
  · intro note hnote
    rw [hplayed] at hnote
    cases hnote

theorem CallOk.of_played {note : Pitch × UInt16} (hplayed : played cfg s now c = some note)
    (hstacked : Stacked cfg (log ++ [cfg.norm note.1]) t) (hmem : ⟨now, cfg.norm note.1, note.2⟩ ∈ t.stack)
    (hexpired : ∀ effects, c = .updateState effects →
      ∀ tone ∈ t.stack, tone.duration ≠ 0xffff → now - tone.timeStarted < tone.duration) :
    CallOk cfg log s now c t := by
  refine ⟨?_, ?_, hexpired⟩
  · rw [playedPitches, hplayed]
    exact hstacked
  · intro note' hnote
    rw [hplayed] at hnote
    cases hnote
    exact hmem

theorem playNote_ok (hsize : cfg.stackSize < 255) (hs : Stacked cfg log s) (hl : Lasting s) (henabled : s.enabled = true)
    {note : Pitch × UInt16} (hd : note.2 ≠ 0) (h : Restarts cfg s now note) :
    Stacked cfg (log ++ [cfg.norm note.1]) (s.audioPlayNote cfg now note.1 note.2) ∧
      ⟨now, cfg.norm note.1, note.2⟩ ∈ (s.audioPlayNote cfg now note.1 note.2).stack ∧
      Lasting (s.audioPlayNote cfg now note.1 note.2) := by
  obtain ⟨hstacked, hplayed⟩ := playNote_stacked hsize hs henabled now note.1 note.2
  refine ⟨hstacked, hplayed.restarted h, ?_⟩
  intro tone htone
  rcases hplayed.mem tone htone with hmem | rfl
  · exact hl tone hmem
  · exact hd

theorem playNote_rate (s : AudioState Pitch) (pitch : Pitch) (duration : UInt16) :
    (s.audioPlayNote cfg now pitch duration).toneMultiplexingRate = s.toneMultiplexingRate := by
  rw [audioPlayNote]
  dsimp only
  split
  · split <;> rfl
  · rfl

theorem playNote_disabled (h : s.enabled = false) (pitch : Pitch) (duration : UInt16) :
    s.audioPlayNote cfg now pitch duration = s := by
  simp [audioPlayNote, h]

theorem multiplex_same (hs : Stacked cfg log s) (hplaying : s.playingNote = true)
    (h : cfg.multiplexing → s.toneMultiplexingRate ≠ 0 ∧ cfg.maxSimultaneousTones ≠ 0) :
    ∃ t, s.multiplex cfg now = some t ∧ SameTones s t := by
  rw [multiplex]
  split
  · rename_i hmultiplexing
    obtain ⟨hrate, hmax⟩ := h hmultiplexing
    have hpos := hs.playing.mp hplaying
    have hnot : ¬ (s.toneMultiplexingRate = 0 ∨ min cfg.maxSimultaneousTones s.activeTones = 0) := by
      rintro (hzero | hzero)
      · exact hrate hzero
      · omega
    simp only [hnot, if_false]
    exact ⟨_, rfl, rfl, rfl, rfl, rfl, rfl⟩
  · exact ⟨s, rfl, rfl, rfl, rfl, rfl, rfl⟩

omit [DecidableEq Pitch] in
theorem reportUpdate_same (s : AudioState Pitch) (gotoNextNote : Bool) : SameTones s (s.reportUpdate gotoNextNote).2 := by
  rw [reportUpdate]
  split <;> exact ⟨rfl, rfl, rfl, rfl, rfl⟩

theorem updateNotes_spec (hs : Stacked cfg log s)
    (h : s.playingNote → Apart now s.stack ∧
      (cfg.multiplexing → s.toneMultiplexingRate ≠ 0 ∧ cfg.maxSimultaneousTones ≠ 0)) (gotoNextNote effects : Bool) :
    ∃ r, s.updateNotes cfg now gotoNextNote effects = some r ∧ Stacked cfg log r.2 ∧ r.2.stack.Sublist s.stack ∧
      ∀ tone ∈ s.stack, tone ∈ r.2.stack ↔ ¬ tone.Expired now := by
  rw [updateNotes]
  by_cases hplaying : s.playingNote = true
  · obtain ⟨hapart, hrate⟩ := h hplaying
    obtain ⟨t, ht, hst⟩ := @multiplex_same _ _ now _ _ _ hs hplaying hrate
    obtain ⟨hstack, hstacked⟩ : (expireLoop cfg now t.activeTones 0 t).stack = expireList now s.stack ∧
        Stacked cfg log (expireLoop cfg now t.activeTones 0 t) :=
      expireLoop_stack (hst.stacked hs) (show t.stack = [] ++ s.stack from hst.stack) rfl (Nat.le_add_left _ _)
    have hsame := reportUpdate_same (expireLoop cfg now t.activeTones 0 t)
      (gotoNextNote || cfg.multiplexing || effects)
    rw [if_pos hplaying, ht]
    refine ⟨_, rfl, hsame.stacked hstacked, ?_, ?_⟩
    · rw [hsame.stack, hstack]
      exact expireList_sublist s.stack
    · intro tone htone
      rw [hsame.stack, hstack]
      exact ⟨fun hmem => (expireList_clean_iff s.stack).mpr hapart tone hmem, mem_expireList htone⟩
  · have hsame := reportUpdate_same s gotoNextNote
    have hempty := hs.stack_nil hplaying
    rw [if_neg hplaying]
    refine ⟨_, rfl, hsame.stacked hs, ?_, ?_⟩
    · rw [hsame.stack]
    · intro tone htone
      rw [hempty] at htone
      cases htone

theorem updateNotes_ok (hs : Stacked cfg log s) (hl : Lasting s)
    (h : s.playingNote → Apart now s.stack ∧
      (cfg.multiplexing → s.toneMultiplexingRate ≠ 0 ∧ cfg.maxSimultaneousTones ≠ 0)) (gotoNextNote effects : Bool) :
    ∃ t, (s.updateNotes cfg now gotoNextNote effects).map Prod.snd = some t ∧ Stacked cfg log t ∧ Lasting t ∧
      (∀ tone ∈ t.stack, tone.duration ≠ 0xffff → now - tone.timeStarted < tone.duration) ∧
      ∀ tone ∈ s.stack, ¬ tone.Expired now → tone ∈ t.stack := by
  obtain ⟨r, hr, hstacked, hsub, hmem⟩ := updateNotes_spec hs h gotoNextNote effects
  have hlasting : Lasting r.2 := fun tone htone => hl tone (hsub.subset htone)
  refine ⟨r.2, by rw [hr]; rfl, hstacked, hlasting, ?_, fun tone htone => (hmem tone htone).mpr⟩
  intro tone htone hfinite
  exact elapsed_lt (hlasting tone htone) ((hmem tone (hsub.subset htone)).mp htone) hfinite

theorem afterMelody_cases (s : AudioState Pitch) :
    (s.melodyDue now = false ∧ afterMelody cfg s now = s) ∨
      ∃ u, SameTones s u ∧ u.toneMultiplexingRate = s.toneMultiplexingRate ∧ s.melodyDue now = true ∧
        ((s.nextNote cfg now = (u, none) ∧ afterMelody cfg s now = u.audioStopAll cfg) ∨
          ∃ note, s.nextNote cfg now = (u, some note) ∧ note.2 ≠ 0 ∧
            afterMelody cfg s now = u.audioPlayNote cfg now note.1 note.2) := by
  cases hdue : s.melodyDue now with
  | false => exact .inl ⟨rfl, by simp [afterMelody, hdue]⟩
  | true =>
    obtain ⟨hsame, hrate, hlong⟩ := @nextNote_spec _ cfg now _ s
    rw [afterMelody, if_pos hdue]
    cases hnext : s.nextNote cfg now with
    | mk u note =>
      rw [hnext] at hsame hrate hlong
      cases note with
      | none => exact .inr ⟨u, hsame, hrate, rfl, .inl ⟨rfl, rfl⟩⟩
      | some note => exact .inr ⟨u, hsame, hrate, rfl, .inr ⟨note, rfl, hlong note rfl, rfl⟩⟩

theorem afterMelody_rate (s : AudioState Pitch) (hplaying : (afterMelody cfg s now).playingNote = true)
    (hs : Stacked cfg log s) : (afterMelody cfg s now).toneMultiplexingRate = s.toneMultiplexingRate := by
  rcases @afterMelody_cases _ cfg now _ s with ⟨-, heq⟩ | ⟨u, hsame, hrate, -, ⟨-, heq⟩ | ⟨note, -, -, heq⟩⟩
  · rw [heq]
  · rw [heq] at hplaying
    have hpos := (stopAll_stacked (hsame.stacked hs)).playing.mp hplaying
    rw [← length_stack, stopAll_stack (hsame.stacked hs)] at hpos
    exact absurd hpos (Nat.lt_irrefl 0)
  · rw [heq, playNote_rate, hrate]

theorem afterMelody_ok (hsize : cfg.stackSize < 255) (hs : Stacked cfg log s) (hl : Lasting s) (effects : Bool)
    (h : s.enabled → ∀ note, melodyNote cfg s now = some note → Restarts cfg s now note) :
    Stacked cfg (log ++ playedPitches cfg s now (.updateState effects)) (afterMelody cfg s now) ∧
      Lasting (afterMelody cfg s now) ∧
      ∀ note, played cfg s now (.updateState effects) = some note →
        ⟨now, cfg.norm note.1, note.2⟩ ∈ (afterMelody cfg s now).stack := by
  have hsilent : ∀ {t : AudioState Pitch}, played cfg s now (.updateState effects) = none → Stacked cfg log t →
      Lasting t → Stacked cfg (log ++ playedPitches cfg s now (.updateState effects)) t ∧ Lasting t ∧
      ∀ note, played cfg s now (.updateState effects) = some note → ⟨now, cfg.norm note.1, note.2⟩ ∈ t.stack := by
    intro t hplayed ht htl
    refine ⟨?_, htl, fun note hnote => ?_⟩
    · rw [playedPitches, hplayed]
      simpa using ht
    · rw [hplayed] at hnote
      cases hnote
  rcases @afterMelody_cases _ cfg now _ s with ⟨hdue, heq⟩ | ⟨u, hsame, -, hdue, ⟨hnext, heq⟩ | ⟨note, hnext, hd, heq⟩⟩
  · rw [heq]
    exact hsilent (by simp [played, melodyNote, hdue]) hs hl
  · have hempty := stopAll_stack (hsame.stacked hs)
    rw [heq]
    refine hsilent (by simp [played, melodyNote, hdue, hnext]) (stopAll_stacked (hsame.stacked hs)) ?_
    simp [Lasting, hempty]
  · have hul : Lasting u := fun tone htone => hl tone (hsame.stack ▸ htone)
    rw [heq]
    cases henabled : s.enabled with
    | false =>
      rw [playNote_disabled (hsame.enabled.trans henabled)]
      exact hsilent (by simp [played, henabled]) (hsame.stacked hs) hul
    | true =>
      have hmelody : melodyNote cfg s now = some note := by simp [melodyNote, hdue, hnext]
      have hplayed : played cfg s now (.updateState effects) = some note := by simp [played, henabled, hmelody]
      have hru : Restarts cfg u now note := by
        rw [Restarts, hsame.stack]
        exact h henabled note hmelody
      obtain ⟨hstacked, hstart, hlasting⟩ :=
        playNote_ok hsize (hsame.stacked hs) hul (hsame.enabled.trans henabled) hd hru
      refine ⟨?_, hlasting, fun note' hnote => ?_⟩
      · rw [playedPitches, hplayed]
        exact hstacked
      · rw [hplayed] at hnote
        cases hnote
        exact hstart

theorem updateState_cases (hs : Stacked cfg log s) (effects : Bool) :
    (s.audioUpdateState cfg now effects = some (false, afterMelody cfg s now) ∧ (afterMelody cfg s now).stack = []) ∨
      s.audioUpdateState cfg now effects = (afterMelody cfg s now).updateNotes cfg now (s.melodyDue now) effects := by
  rw [audioUpdateState]
  by_cases hidle : ¬ s.playingNote ∧ ¬ s.playingMelody
  · have hdue : s.melodyDue now = false := by
      have hmelody : s.playingMelody = false := by simpa using hidle.2
      simp [melodyDue, hmelody]
    rw [if_pos hidle]
    refine .inl ⟨by simp [afterMelody, hdue], ?_⟩
    rw [afterMelody, if_neg (by simp [hdue])]
    exact hs.stack_nil hidle.1
  · rw [if_neg hidle]
    rcases @afterMelody_cases _ cfg now _ s with ⟨hdue, heq⟩ | ⟨u, hsame, -, hdue, ⟨hnext, heq⟩ | ⟨note, hnext, -, heq⟩⟩
    · rw [if_neg (by simp [hdue]), heq, hdue]
      exact .inr rfl
    · rw [if_pos hdue, hnext, heq]
      exact .inl ⟨rfl, stopAll_stack (hsame.stacked hs)⟩
    · rw [if_pos hdue, hnext, heq, hdue]
      exact .inr rfl

theorem updateState_meets (hsize : cfg.stackSize < 255) (hs : Stacked cfg log s) (hl : Lasting s) (effects : Bool)
    (h : Meets cfg s now (.updateState effects)) :
    ∃ t, s.call cfg now (.updateState effects) = some t ∧ CallOk cfg log s now (.updateState effects) t ∧
      Lasting t := by
  obtain ⟨hrestarts, hafter⟩ := h
  obtain ⟨hstacked, hlasting, hstart⟩ := afterMelody_ok hsize hs hl effects hrestarts
  rw [call]
  rcases updateState_cases hs effects with ⟨hupdate, hempty⟩ | hupdate
  · rw [hupdate]
    exact ⟨_, rfl, ⟨hstacked, hstart, by simp [hempty]⟩, hlasting⟩
  · have hrates : (afterMelody cfg s now).playingNote → Apart now (afterMelody cfg s now).stack ∧
        (cfg.multiplexing → (afterMelody cfg s now).toneMultiplexingRate ≠ 0 ∧ cfg.maxSimultaneousTones ≠ 0) := by
      intro hplaying
      rw [afterMelody_rate s hplaying hs]
      exact hafter hplaying
    obtain ⟨t, ht, htstacked, htlasting, hexpired, hkept⟩ :=
      updateNotes_ok hstacked hlasting hrates (s.melodyDue now) effects
    rw [hupdate]
    exact ⟨t, ht, ⟨htstacked, fun note hnote => hkept _ (hstart note hnote) not_expired_now, fun _ _ => hexpired⟩,
      htlasting⟩

theorem silent_ok (hplayed : played cfg s now c = none) (hc : ∀ effects, c ≠ .updateState effects) (hl : Lasting s)
    (hstacked : Stacked cfg log t) (hsub : t.stack.Sublist s.stack) : CallOk cfg log s now c t ∧ Lasting t :=
  ⟨.of_silent hplayed hstacked fun effects h => absurd h (hc effects), fun tone htone => hl tone (hsub.subset htone)⟩

theorem silent_same (hplayed : played cfg s now c = none) (hc : ∀ effects, c ≠ .updateState effects)
    (hs : Stacked cfg log s) (hl : Lasting s) (h : SameTones s t) : CallOk cfg log s now c t ∧ Lasting t :=
  silent_ok hplayed hc hl (h.stacked hs) (h.stack ▸ List.Sublist.refl _)

theorem stopAll_sublist (hs : Stacked cfg log s) : (s.audioStopAll cfg).stack.Sublist s.stack := by
  rw [stopAll_stack hs]
  exact List.nil_sublist _

theorem playMelody_meets (hsize : cfg.stackSize < 255) (hs : Stacked cfg log s) (hl : Lasting s)
    (notes : Nat → Pitch × UInt16) (notesCount : UInt16) (notesRepeat : Bool)
    (h : Meets cfg s now (.playMelody notes notesCount notesRepeat)) :
    CallOk cfg log s now (.playMelody notes notesCount notesRepeat)
        (s.audioPlayMelody cfg now notes notesCount notesRepeat) ∧
      Lasting (s.audioPlayMelody cfg now notes notesCount notesRepeat) := by
  rw [audioPlayMelody]
  cases henabled : s.enabled with
  | false =>
    have hplayed : played cfg s now (.playMelody notes notesCount notesRepeat) = none := by simp [played, henabled]
    simp only [Bool.false_eq_true, not_false_eq_true, if_true]
    exact silent_ok hplayed (fun _ h => nomatch h) hl (stopAll_stacked hs) (stopAll_sublist hs)
  | true =>
    simp only [not_true_eq_false, if_false]
    by_cases hcount : notesCount = 0
    · have hplayed : played cfg s now (.playMelody notes notesCount notesRepeat) = none := by simp [played, hcount]
      rw [if_pos hcount]
      exact silent_same hplayed (fun _ h => nomatch h) hs hl ⟨rfl, rfl, rfl, rfl, rfl⟩
    · rw [if_neg hcount]
      -- Whatever was played is stopped, so that the first note is new on the stack.
      have hstopped : Stacked cfg log (if s.playingNote then s.audioStopAll cfg else s) ∧
          (if s.playingNote then s.audioStopAll cfg else s).stack = [] ∧
          (if s.playingNote then s.audioStopAll cfg else s).enabled = true := by
        by_cases hplaying : s.playingNote = true
        · rw [if_pos hplaying]
          refine ⟨stopAll_stacked hs, stopAll_stack hs, ?_⟩
          rw [audioStopAll]
          split <;> exact henabled
        · rw [if_neg hplaying]
          exact ⟨hs, hs.stack_nil hplaying, henabled⟩
      generalize (if s.playingNote then s.audioStopAll cfg else s) = u at hstopped ⊢
      obtain ⟨hu, hempty, huenabled⟩ := hstopped
      let v : AudioState Pitch := { u with
        playingMelody := true
        noteResting := false
        notes := notes
        notesCount := notesCount
        notesRepeat := notesRepeat
        currentNote := 0 }
      have hv : SameTones u v := ⟨rfl, rfl, rfl, rfl, rfl⟩
      have hvempty : v.stack = [] := hv.stack.trans hempty
      have hvlasting : Lasting v := by simp [Lasting, hvempty]
      have hvrestarts : Restarts cfg v now ((notes 0).1, cfg.durationToMs (notes 0).2) := by simp [Restarts, hvempty]
      obtain ⟨hstacked, hstart, hlasting⟩ :=
        playNote_ok hsize (hv.stacked hu) hvlasting huenabled (h henabled hcount) hvrestarts
      have hplayed : played cfg s now (.playMelody notes notesCount notesRepeat) =
          some ((notes 0).1, cfg.durationToMs (notes 0).2) := by simp [played, henabled, hcount]
      have hsame : SameTones (v.audioPlayNote cfg now (notes 0).1 (cfg.durationToMs (notes 0).2))
          { v.audioPlayNote cfg now (notes 0).1 (cfg.durationToMs (notes 0).2) with
            lastTimestamp := now
            melodyCurrentNoteDuration := cfg.durationToMs (notes 0).2 } := ⟨rfl, rfl, rfl, rfl, rfl⟩
      exact And.intro (.of_played hplayed (hsame.stacked hstacked) (hsame.stack ▸ hstart) fun _ h => nomatch h)
        fun tone htone => hlasting tone (hsame.stack ▸ htone)

theorem call_meets (hsize : cfg.stackSize < 255) (hs : Stacked cfg log s) (hl : Lasting s) (c : AudioCall Pitch)
    (h : Meets cfg s now c) : ∃ t, s.call cfg now c = some t ∧ CallOk cfg log s now c t ∧ Lasting t := by
  have hplay : ∀ (c : AudioCall Pitch) (note : Pitch × UInt16), (∀ effects, c ≠ .updateState effects) →
      played cfg s now c = (if s.enabled then some note else none) →
      (s.enabled → note.2 ≠ 0 ∧ Restarts cfg s now note) →
      CallOk cfg log s now c (s.audioPlayNote cfg now note.1 note.2) ∧
        Lasting (s.audioPlayNote cfg now note.1 note.2) := by
    intro c note hc hplayed hnote
    cases henabled : s.enabled with
    | false =>
      rw [playNote_disabled henabled]
      exact silent_same (by simpa [henabled] using hplayed) hc hs hl ⟨rfl, rfl, rfl, rfl, rfl⟩
    | true =>
      obtain ⟨hstacked, hstart, hlasting⟩ := playNote_ok hsize hs hl henabled (hnote henabled).1 (hnote henabled).2
      refine ⟨.of_played ?_ hstacked hstart fun effects h => absurd h (hc effects), hlasting⟩
      simpa [henabled] using hplayed
  cases c with
  | playNote pitch duration => exact ⟨_, rfl, hplay _ (pitch, duration) (fun _ h => nomatch h) rfl h⟩
  | playTone pitch =>
    have hlong : (0xffff : UInt16) ≠ 0 := by decide
    exact ⟨_, rfl, hplay _ (pitch, 0xffff) (fun _ h => nomatch h) rfl fun henabled => ⟨hlong, h henabled⟩⟩
  | playMelody notes notesCount notesRepeat =>
    exact ⟨_, rfl, playMelody_meets hsize hs hl notes notesCount notesRepeat h⟩
  | updateState effects => exact updateState_meets hsize hs hl effects h
  | stopTone pitch =>
    exact ⟨_, rfl, silent_ok rfl (fun _ h => nomatch h) hl (stopTone_stacked hs pitch) (stopTone_sublist hs pitch)⟩
  | stopAll => exact ⟨_, rfl, silent_ok rfl (fun _ h => nomatch h) hl (stopAll_stacked hs) (stopAll_sublist hs)⟩
  | setRate rate => exact ⟨_, rfl, silent_same rfl (fun _ h => nomatch h) hs hl ⟨rfl, rfl, rfl, rfl, rfl⟩⟩
  | enableMultiplexing => exact ⟨_, rfl, silent_same rfl (fun _ h => nomatch h) hs hl ⟨rfl, rfl, rfl, rfl, rfl⟩⟩
  | disableMultiplexing => exact ⟨_, rfl, silent_same rfl (fun _ h => nomatch h) hs hl ⟨rfl, rfl, rfl, rfl, rfl⟩⟩
  | increaseRate change =>
    refine ⟨_, rfl, silent_same rfl (fun _ h => nomatch h) hs hl ?_⟩
    rw [audioIncreaseToneMultiplexingRate]
    split <;> exact ⟨rfl, rfl, rfl, rfl, rfl⟩
  | decreaseRate change =>
    refine ⟨_, rfl, silent_same rfl (fun _ h => nomatch h) hs hl ?_⟩
    rw [audioDecreaseToneMultiplexingRate]
    split <;> exact ⟨rfl, rfl, rfl, rfl, rfl⟩

def RunMeets (cfg : AudioConfig Pitch) : List (UInt16 × AudioCall Pitch) → AudioState Pitch → Prop
  | [], _ => True
  | (now, c) :: calls, s => Meets cfg s now c ∧ ∀ t, s.call cfg now c = some t → RunMeets cfg calls t

/-- No call of a run divides by zero, and the invariant and what a call is to do hold behind each. -/
def RunOk (cfg : AudioConfig Pitch) : List (UInt16 × AudioCall Pitch) → List Pitch → AudioState Pitch → Prop
  | [], log, s => Stacked cfg log s
  | (now, c) :: calls, log, s =>
    Stacked cfg log s ∧ ∃ t, s.call cfg now c = some t ∧ CallOk cfg log s now c t ∧
      RunOk cfg calls (log ++ playedPitches cfg s now c) t

theorem run_meets (hsize : cfg.stackSize < 255) (calls : List (UInt16 × AudioCall Pitch)) (hs : Stacked cfg log s)
    (hl : Lasting s) (h : RunMeets cfg calls s) : RunOk cfg calls log s := by
  induction calls generalizing log s with
  | nil => exact hs
  | cons call calls ih =>
    obtain ⟨now, c⟩ := call
    obtain ⟨t, ht, hok, hlt⟩ := call_meets hsize hs hl c h.1
    exact ⟨hs, t, ht, hok, ih hok.stacked hlt (h.2 t ht)⟩

/-- From `audio_init` on, in a run whose calls all meet their condition. -/
theorem tone_stack_run (hsize : cfg.stackSize < 255) (s : AudioState Pitch) (calls : List (UInt16 × AudioCall Pitch))
    (h : RunMeets cfg calls (s.afterInit cfg)) : RunOk cfg calls [] (s.afterInit cfg) := by
  refine run_meets hsize calls (afterInit_stacked [] s) ?_ h
  intro tone htone
  cases htone

end AudioState

end Update

def hertz (multiplexing : Bool) : AudioConfig Int where
  norm p := p.natAbs
  emptyPitch := -1
  restPitch := 0
  stackSize := 8
  multiplexing := multiplexing
  maxSimultaneousTones := 3
  rateDefault := 0
  noteTempo := 120
  norm_norm p := by simp
  norm_ne p := by omega
  stackSize_pos := Nat.succ_pos 7
  noteTempo_ge := by decide

namespace AudioState

def idle : AudioState Int where
  activeTones := 0
  tones := fun _ => (hertz false).emptyTone
  playingMelody := false
  playingNote := false
  stateChanged := false
  notes := fun _ => (0, 0)
  notesCount := 0
  notesRepeat := false
  melodyCurrentNoteDuration := 0
  currentNote := 0
  noteResting := false
  lastTimestamp := 0
  toneMultiplexingRate := 0
  toneMultiplexingIndexShift := 0
  driverStopped := true
  enabled := true

/-- A tone below the top is played again, and outlives the other one. -/
theorem tone_stack_run_replayed : RunOk (hertz false)
    [(0, .playNote 440 100), (10, .playNote 523 100), (20, .playNote 440 100), (115, .updateState false)] []
    (idle.afterInit (hertz false)) := by
  refine tone_stack_run (by decide) idle _ ?_
  refine ⟨fun _ => ⟨by decide, fun top htop => ?_⟩, fun t ht => ?_⟩
  · cases htop
  · cases ht
    refine ⟨fun _ => ⟨by decide, fun top htop hpitch => ?_⟩, fun t ht => ?_⟩
    · cases htop
      cases hpitch
    · cases ht
      refine ⟨fun _ => ⟨by decide, fun top htop hpitch => ?_⟩, fun t ht => ?_⟩
      · cases htop
        cases hpitch
      · cases ht
        refine ⟨⟨fun _ note hnote => ?_, fun _ => ⟨?_, fun h => nomatch h⟩⟩, fun _ _ => trivial⟩
        · cases hnote
        · rw [Apart]
          decide

/-- The tone on top of the stack is not restarted. -/
theorem top_tone_not_restarted : ¬ ∀ (cfg : AudioConfig Int) (s : AudioState Int) (calls : List (UInt16 × AudioCall Int)),
    cfg.stackSize < 255 → RunOk cfg calls [] (s.afterInit cfg) := by
  intro h
  have hrun := h (hertz false) idle [(0, .playNote 440 100), (50, .playNote 440 100)] (by decide)
  obtain ⟨-, t, ht, -, -, u, hu, hok, -⟩ := hrun
  cases ht
  cases hu
  have hmem := hok.restarted (440, 100) rfl
  revert hmem
  decide

end AudioState

end Audio
end VialQmk
