import VialQmk.Audio.ToneStack
import Mathlib.Data.List.InsertIdx

/-!
# Audio.ToneStackInv

What playing and stopping a tone does to the stack.

* `Stacked`: the active tones are different, in the order in which they were played last, and the other slots empty.
* `stopAll_stacked`, `stopTone_stack`, `playNote_played`: one lemma for each function that changes the stack.
-/

namespace VialQmk
namespace Audio

open Lib

variable {Pitch : Type} {cfg : AudioConfig Pitch}

theorem shiftDown_apply (m : Mem (Tone Pitch)) (i n x : Nat) :
    shiftDown m i n x = if i ≤ x ∧ x < i + n then m (x + 1) else m x := by
  induction n generalizing m i with
  | zero =>
    have hempty : ¬ (i ≤ x ∧ x < i + 0) := by omega
    rw [shiftDown, if_neg hempty]
  | succ n ih =>
    rw [shiftDown, ih]
    by_cases hx : x = i
    · subst hx
      have hout : ¬ (x + 1 ≤ x ∧ x < x + 1 + n) := by omega
      rw [if_neg hout, Function.update_self, if_pos (by omega)]
    · have hiff : (i + 1 ≤ x ∧ x < i + 1 + n) ↔ (i ≤ x ∧ x < i + (n + 1)) := by omega
      have hne : x + 1 ≠ i ∨ ¬ (i ≤ x ∧ x < i + (n + 1)) := by omega
      rw [Function.update_of_ne hx]
      simp only [hiff]
      split
      · rw [Function.update_of_ne (by omega)]
      · rfl

theorem moveUp_apply (tone : Tone Pitch) (m : Mem (Tone Pitch)) (i n x : Nat) :
    moveUp tone m i n x =
      if i ≤ x ∧ x < i + n then m (x + 1) else if x = i + n ∧ 0 < n then tone else m x := by
  induction n generalizing m i with
  | zero =>
    have hempty : ¬ (i ≤ x ∧ x < i + 0) := by omega
    have htop : ¬ (x = i + 0 ∧ 0 < 0) := by omega
    rw [moveUp, if_neg hempty, if_neg htop]
  | succ n ih =>
    rw [moveUp, ih]
    simp only [Function.update_apply]
    split_ifs <;> first | rfl | omega | (congr 1; omega)

namespace AudioState

variable {s : AudioState Pitch}

def stack (s : AudioState Pitch) : List (Tone Pitch) := s.tones.readBlock 0 s.activeTones

def pitches (s : AudioState Pitch) : List Pitch := s.stack.map Tone.pitch

@[simp] theorem length_stack (s : AudioState Pitch) : s.stack.length = s.activeTones := Mem.readBlock_length _ _ _

@[simp] theorem length_pitches (s : AudioState Pitch) : s.pitches.length = s.activeTones := by simp [pitches]

theorem stack_getElem {i : Nat} (h : i < s.stack.length) : s.stack[i] = s.tones i := by
  simp only [stack, Mem.readBlock_getElem, Nat.zero_add]

theorem pitches_getElem {i : Nat} (h : i < s.pitches.length) : s.pitches[i] = (s.tones i).pitch := by
  simp only [pitches, List.getElem_map, stack_getElem]

theorem mem_stack {tone : Tone Pitch} : tone ∈ s.stack ↔ ∃ i, i < s.activeTones ∧ s.tones i = tone := by
  simp [stack, Mem.mem_readBlock]

def replay (s : AudioState Pitch) (tone : Tone Pitch) (i : Nat) : AudioState Pitch :=
  { s with tones := moveUp tone s.tones i (s.activeTones - 1 - i) }

theorem replay_top {tone : Tone Pitch} {i : Nat} (hi : i + 1 = s.activeTones) : s.replay tone i = s := by
  have hzero : s.activeTones - 1 - i = 0 := by omega
  rw [replay, hzero]
  rfl

theorem replay_stack {tone : Tone Pitch} {i : Nat} (hi : i + 1 < s.activeTones) :
    (s.replay tone i).stack = s.stack.eraseIdx i ++ [tone] := by
  obtain ⟨n, hn⟩ : ∃ n, s.activeTones = n + 1 := ⟨s.activeTones - 1, by omega⟩
  simp only [stack, replay, hn, Nat.add_sub_cancel]
  refine (Mem.readBlock_succ _ _ _).trans (congrArg₂ (· ++ ·) ?_ ?_)
  · refine readBlock_shift (by omega) fun x hx => ?_
    rw [moveUp_apply]
    by_cases hxi : x < i
    · rw [if_neg (by omega), if_neg (by omega), if_pos hxi]
    · rw [if_pos (by omega), if_neg hxi]
  · rw [moveUp_apply, if_neg (by omega), if_pos (by omega)]

theorem pushTone_full (hsize : cfg.stackSize < 255) (hfull : s.activeTones = cfg.stackSize) (tone : Tone Pitch) :
    s.pushTone cfg tone =
      { s with
        activeTones := cfg.stackSize
        stateChanged := true
        playingNote := true
        tones := Function.update (shiftDown s.tones 0 (cfg.stackSize - 1)) (cfg.stackSize - 1) tone
        driverStopped := false } := by
  have hmod : (cfg.stackSize + 1) % 2 ^ 8 = cfg.stackSize + 1 := Nat.mod_eq_of_lt (by omega)
  have hlt : cfg.stackSize < cfg.stackSize + 1 := Nat.lt_succ_self _
  simp only [pushTone, hfull, hmod, hlt, decide_true, if_true]

theorem pushTone_room (hsize : cfg.stackSize < 255) (hroom : s.activeTones < cfg.stackSize) (tone : Tone Pitch) :
    s.pushTone cfg tone =
      { s with
        activeTones := s.activeTones + 1
        stateChanged := true
        playingNote := true
        tones := Function.update s.tones s.activeTones tone
        driverStopped := false } := by
  have hmod : (s.activeTones + 1) % 2 ^ 8 = s.activeTones + 1 := Nat.mod_eq_of_lt (by omega)
  have hfull : ¬ cfg.stackSize < s.activeTones + 1 := by omega
  simp only [pushTone, hmod, hfull, decide_false, Bool.false_eq_true, if_false, Nat.add_sub_cancel]

end AudioState

variable [DecidableEq Pitch]

theorem findPitch_some {m : Mem (Tone Pitch)} {pitch : Pitch} {n i : Nat} (h : findPitch m pitch n = some i) :
    i < n ∧ (m i).pitch = pitch := by
  induction n with
  | zero => cases h
  | succ n ih =>
    rw [findPitch] at h
    split at h
    · cases h
      exact ⟨Nat.lt_succ_self _, ‹_›⟩
    · exact ⟨Nat.lt_succ_of_lt (ih h).1, (ih h).2⟩

theorem findPitch_none {m : Mem (Tone Pitch)} {pitch : Pitch} {n : Nat} (h : findPitch m pitch n = none) :
    ∀ i < n, (m i).pitch ≠ pitch := by
  induction n with
  | zero => exact fun i hi => absurd hi (Nat.not_lt_zero i)
  | succ n ih =>
    rw [findPitch] at h
    split at h
    · cases h
    · intro i hi
      rcases Nat.lt_succ_iff_lt_or_eq.mp hi with hlt | rfl
      · exact ih h i hlt
      · assumption

namespace AudioState

variable {s t : AudioState Pitch} {log : List Pitch}

/-- The tones that are not active are empty, and the flags tell if there are active ones. -/
structure Slots (cfg : AudioConfig Pitch) (s : AudioState Pitch) : Prop where
  active_le : s.activeTones ≤ cfg.stackSize
  empty : ∀ i, s.activeTones ≤ i → i < cfg.stackSize → s.tones i = cfg.emptyTone
  playing : s.playingNote = true ↔ 0 < s.activeTones
  driver : s.driverStopped = true ↔ s.activeTones = 0

/-- The invariant: the pitches are different and in the order of their last play, in the log of all plays. -/
structure Stacked (cfg : AudioConfig Pitch) (log : List Pitch) (s : AudioState Pitch) : Prop extends Slots cfg s where
  inOrder : InOrder s.pitches log
  norm : ∀ p ∈ s.pitches, cfg.norm p = p

theorem Stacked.lt_of_norm (h : Stacked cfg log s) {i : Nat} {pitch : Pitch} (hi : i < cfg.stackSize)
    (hp : (s.tones i).pitch = cfg.norm pitch) : i < s.activeTones := by
  by_contra hge
  rw [h.empty i (Nat.le_of_not_lt hge) hi] at hp
  exact cfg.norm_ne pitch hp.symm

theorem Stacked.index_eq (h : Stacked cfg log s) {i j : Nat} (hi : i < s.activeTones) (hj : j < s.activeTones)
    (hp : (s.tones i).pitch = (s.tones j).pitch) : i = j := by
  have hi' : i < s.pitches.length := by simpa using hi
  have hj' : j < s.pitches.length := by simpa using hj
  have hsame : s.pitches[i] = s.pitches[j] := by rw [pitches_getElem, pitches_getElem, hp]
  exact h.inOrder.nodup.getElem_inj_iff.mp hsame

theorem Stacked.driver_running (h : Stacked cfg log s) (hpos : 0 < s.activeTones) : s.driverStopped = false := by
  cases hstopped : s.driverStopped with
  | false => rfl
  | true => exact absurd (h.driver.mp hstopped) (by omega)

theorem Stacked.stack_nil (h : Stacked cfg log s) (hnot : ¬ s.playingNote = true) : s.stack = [] := by
  have hzero : s.activeTones = 0 := Nat.eq_zero_of_not_pos fun hpos => hnot (h.playing.mpr hpos)
  rw [stack, hzero]
  rfl

theorem stopAll_stack (h : Stacked cfg log s) : (s.audioStopAll cfg).stack = [] := by
  rw [audioStopAll]
  split
  · rename_i hstopped
    rw [stack, h.driver.mp hstopped]
    rfl
  · rfl

theorem afterInit_stacked (log : List Pitch) (s : AudioState Pitch) : Stacked cfg log (s.afterInit cfg) := by
  refine ⟨⟨Nat.zero_le _, ?_, by simp [afterInit], by simp [afterInit]⟩, .nil log,
    by simp [pitches, stack, afterInit, Mem.readBlock]⟩
  intro i _ hi
  simp only [afterInit, Mem.writeBlock_apply, Nat.zero_le, if_true, Nat.sub_zero]
  rw [List.getD_eq_getElem _ _ (by simpa using hi), List.getElem_replicate]

theorem stopAll_stacked (h : Stacked cfg log s) : Stacked cfg log (s.audioStopAll cfg) := by
  rw [audioStopAll]
  split
  · exact h
  · have hinit := @afterInit_stacked _ cfg _ log s
    exact ⟨⟨hinit.active_le, hinit.empty, hinit.playing, hinit.driver⟩, hinit.inOrder, hinit.norm⟩

theorem stopTone_found (h : Stacked cfg log s) {pitch : Pitch} {i : Nat}
    (hfind : findPitch s.tones (cfg.norm pitch) cfg.stackSize = some i) :
    (s.audioStopTone cfg pitch).stack = s.stack.eraseIdx i ∧ Stacked cfg log (s.audioStopTone cfg pitch) := by
  obtain ⟨hslot, hpitch⟩ := findPitch_some hfind
  have hi := h.lt_of_norm hslot hpitch
  have hle := h.active_le
  have hplaying : s.playingNote = true := h.playing.mpr (Nat.zero_lt_of_lt hi)
  have hdriver := h.driver_running (Nat.zero_lt_of_lt hi)
  obtain ⟨n, hn⟩ : ∃ n, s.activeTones = n + 1 := ⟨s.activeTones - 1, by omega⟩
  have hstack : (s.audioStopTone cfg pitch).stack = s.stack.eraseIdx i := by
    simp only [audioStopTone, hplaying, if_true, hfind, stack, hn, Nat.add_sub_cancel]
    refine readBlock_shift (by omega) fun x hx => ?_
    rw [Function.update_of_ne (by omega), shiftDown_apply]
    by_cases hxi : x < i
    · rw [if_neg (by omega), if_pos hxi]
    · rw [if_pos (by omega), if_neg hxi]
  have hpitches : (s.audioStopTone cfg pitch).pitches = s.pitches.eraseIdx i := by
    rw [pitches, hstack, pitches, List.eraseIdx_map]
  have hsub : (s.audioStopTone cfg pitch).pitches.Sublist s.pitches := by
    rw [hpitches]
    exact List.eraseIdx_sublist _ _
  refine ⟨hstack, ⟨?_, ?_, ?_, ?_⟩, h.inOrder.sublist hsub, fun p hp => h.norm p (hsub.subset hp)⟩
  · simp only [audioStopTone, hplaying, if_true, hfind]
    omega
  · simp only [audioStopTone, hplaying, if_true, hfind]
    intro x hx hxs
    rw [Function.update_apply]
    split
    · rfl
    · rw [shiftDown_apply, if_pos (by omega)]
      exact h.empty (x + 1) (by omega) (by omega)
  · simp only [audioStopTone, hplaying, if_true, hfind, decide_eq_true_eq]
    omega
  · simp only [audioStopTone, hplaying, if_true, hfind, hdriver, Bool.false_or, decide_eq_true_eq]

theorem stopTone_stacked (h : Stacked cfg log s) (pitch : Pitch) : Stacked cfg log (s.audioStopTone cfg pitch) := by
  cases hfind : findPitch s.tones (cfg.norm pitch) cfg.stackSize with
  | none =>
    have hsame : s.audioStopTone cfg pitch = s := by simp [audioStopTone, hfind]
    rw [hsame]
    exact h
  | some i => exact (stopTone_found h hfind).2

theorem stopTone_sublist (h : Stacked cfg log s) (pitch : Pitch) :
    (s.audioStopTone cfg pitch).stack.Sublist s.stack := by
  cases hfind : findPitch s.tones (cfg.norm pitch) cfg.stackSize with
  | none =>
    have hsame : s.audioStopTone cfg pitch = s := by simp [audioStopTone, hfind]
    rw [hsame]
  | some i =>
    rw [(stopTone_found h hfind).1]
    exact List.eraseIdx_sublist _ _

theorem stopTone_stack (h : Stacked cfg log s) {i : Nat} (hi : i < s.activeTones) :
    (s.audioStopTone cfg (s.tones i).pitch).stack = s.stack.eraseIdx i := by
  have hnorm : cfg.norm (s.tones i).pitch = (s.tones i).pitch :=
    h.norm _ (List.mem_map_of_mem (mem_stack.mpr ⟨i, hi, rfl⟩))
  cases hfind : findPitch s.tones (cfg.norm (s.tones i).pitch) cfg.stackSize with
  | none =>
    have hle := h.active_le
    exact absurd hnorm.symm (findPitch_none hfind i (by omega))
  | some j =>
    obtain ⟨hslot, hpitch⟩ := findPitch_some hfind
    have hj := h.lt_of_norm hslot hpitch
    have hij := h.index_eq hj hi (hpitch.trans hnorm)
    subst hij
    exact (stopTone_found h hfind).1

theorem replay_slots (h : Stacked cfg log s) (tone : Tone Pitch) {i : Nat} (hi : i < s.activeTones) :
    Slots cfg (s.replay tone i) := by
  refine ⟨h.active_le, ?_, h.playing, h.driver⟩
  intro x hx hxs
  have hx' : s.activeTones ≤ x := hx
  simp only [replay]
  rw [moveUp_apply, if_neg (by omega), if_neg (by omega)]
  exact h.empty x hx hxs

theorem pushTone_stack (hsize : cfg.stackSize < 255) (h : Stacked cfg log s) (tone : Tone Pitch) :
    (s.pushTone cfg tone).stack = (s.stack ++ [tone]).drop (s.activeTones + 1 - cfg.stackSize) := by
  have hpos := cfg.stackSize_pos
  rcases Nat.lt_or_eq_of_le h.active_le with hroom | hfull
  · have hdrop : s.activeTones + 1 - cfg.stackSize = 0 := by omega
    rw [pushTone_room hsize hroom, hdrop, List.drop_zero]
    refine (Mem.readBlock_succ _ _ _).trans (congrArg₂ (· ++ ·) ?_ ?_)
    · refine Mem.readBlock_congr fun x hx => Function.update_of_ne ?_ _ _
      omega
    · simp
  · obtain ⟨n, hn⟩ : ∃ n, cfg.stackSize = n + 1 := ⟨cfg.stackSize - 1, by omega⟩
    have hdrop : s.activeTones + 1 - cfg.stackSize = 1 := by omega
    rw [hdrop, List.drop_append_of_le_length (by rw [length_stack]; omega), List.drop_one, ← List.eraseIdx_zero,
      pushTone_full hsize hfull]
    simp only [stack, hfull, hn, Nat.add_sub_cancel]
    refine (Mem.readBlock_succ _ _ _).trans (congrArg₂ (· ++ ·) ?_ ?_)
    · refine readBlock_shift (Nat.zero_le n) fun x hx => ?_
      rw [Function.update_of_ne (by omega), shiftDown_apply, if_pos (by omega), if_neg (Nat.not_lt_zero x)]
    · simp

theorem pushTone_slots (hsize : cfg.stackSize < 255) (h : Stacked cfg log s) (tone : Tone Pitch) :
    Slots cfg (s.pushTone cfg tone) := by
  have hpos := cfg.stackSize_pos
  rcases Nat.lt_or_eq_of_le h.active_le with hroom | hfull
  · rw [pushTone_room hsize hroom]
    refine ⟨hroom, ?_, by simp, by simp⟩
    intro x hx hxs
    have hx' : s.activeTones + 1 ≤ x := hx
    have hne : x ≠ s.activeTones := by omega
    exact (Function.update_of_ne hne _ _).trans (h.empty x (by omega) hxs)
  · rw [pushTone_full hsize hfull]
    refine ⟨Nat.le_refl _, ?_, by simp [hpos], by simp; omega⟩
    intro x hx hxs
    exact absurd hxs (Nat.not_lt_of_le hx)

structure Played (s t : AudioState Pitch) (tone : Tone Pitch) : Prop where
  mem : ∀ u ∈ t.stack, u ∈ s.stack ∨ u = tone
  restarted : (∀ top, s.stack.getLast? = some top → top.pitch = tone.pitch → top = tone) → tone ∈ t.stack

theorem Stacked.use (h : Stacked cfg log s) {pitch : Pitch} (hslots : Slots cfg t)
    (hpitches : t.pitches = useKey cfg.stackSize (cfg.norm pitch) s.pitches) :
    Stacked cfg (log ++ [cfg.norm pitch]) t := by
  refine ⟨hslots, ?_, ?_⟩
  · rw [hpitches]
    exact h.inOrder.use _ _
  · intro p hp
    rw [hpitches] at hp
    rcases mem_useKey hp with hmem | rfl
    · exact h.norm p hmem
    · exact cfg.norm_norm pitch

theorem replay_played (h : Stacked cfg log s) {tone : Tone Pitch} {i : Nat} (hi : i < s.activeTones)
    (hpitch : (s.tones i).pitch = tone.pitch) :
    (s.replay tone i).pitches = useKey cfg.stackSize tone.pitch s.pitches ∧ Played s (s.replay tone i) tone := by
  have hle : s.pitches.length ≤ cfg.stackSize := by simpa using h.active_le
  have hi' : i < s.pitches.length := by simpa using hi
  have hkey : tone.pitch = s.pitches[i] := by rw [pitches_getElem, hpitch]
  by_cases htop : i + 1 = s.activeTones
  · -- On top already nothing changes, and the tone is there only if it was.
    rw [replay_top htop]
    have hlast : s.stack.getLast? = some (s.tones i) := by
      have hindex : s.activeTones - 1 = i := by omega
      rw [List.getLast?_eq_getElem?, length_stack, hindex, List.getElem?_eq_getElem (by simpa using hi), stack_getElem]
    refine ⟨?_, fun u hu => .inl hu, fun hsame => ?_⟩
    · rw [hkey, useKey_top h.inOrder.nodup hle hi' (by rw [length_pitches, htop])]
    · rw [← hsame _ hlast hpitch]
      exact mem_stack.mpr ⟨i, hi, rfl⟩
  · have hstack := @replay_stack _ s tone i (by omega)
    refine ⟨?_, ?_, fun _ => ?_⟩
    · have huse : useKey cfg.stackSize tone.pitch s.pitches = s.pitches.eraseIdx i ++ [tone.pitch] := by
        rw [hkey, useKey_of_mem h.inOrder.nodup hle hi']
      rw [pitches, hstack, huse, List.map_append, pitches, List.eraseIdx_map]
      rfl
    · intro u hu
      rw [hstack, List.mem_append, List.mem_singleton] at hu
      exact hu.imp_left fun hmem => (List.eraseIdx_sublist _ _).subset hmem
    · rw [hstack]
      simp

theorem pushTone_played (hsize : cfg.stackSize < 255) (h : Stacked cfg log s) {tone : Tone Pitch}
    (hnew : tone.pitch ∉ s.pitches) :
    (s.pushTone cfg tone).pitches = useKey cfg.stackSize tone.pitch s.pitches ∧ Played s (s.pushTone cfg tone) tone := by
  have hstack := pushTone_stack hsize h tone
  have hpos := cfg.stackSize_pos
  have hle := h.active_le
  refine ⟨?_, ?_, fun _ => ?_⟩
  · rw [pitches, hstack, useKey_of_notMem hnew, List.map_drop, List.map_append, length_pitches]
    rfl
  · intro u hu
    rw [hstack] at hu
    simpa using List.mem_of_mem_drop hu
  · rw [hstack, List.drop_append_of_le_length (by rw [length_stack]; omega)]
    simp

theorem playNote_stacked (hsize : cfg.stackSize < 255) (h : Stacked cfg log s) (henabled : s.enabled = true)
    (now : UInt16) (pitch : Pitch) (duration : UInt16) :
    Stacked cfg (log ++ [cfg.norm pitch]) (s.audioPlayNote cfg now pitch duration) ∧
    Played s (s.audioPlayNote cfg now pitch duration) ⟨now, cfg.norm pitch, duration⟩ := by
  cases hfind : findPitch s.tones (cfg.norm pitch) s.activeTones with
  | some i =>
    obtain ⟨hi, hpitch⟩ := findPitch_some hfind
    have hplay : s.audioPlayNote cfg now pitch duration = s.replay ⟨now, cfg.norm pitch, duration⟩ i := by
      simp [audioPlayNote, henabled, hfind, replay]
    have hplayed := @replay_played _ cfg _ s log h ⟨now, cfg.norm pitch, duration⟩ i hi hpitch
    rw [hplay]
    exact ⟨h.use (replay_slots h _ hi) hplayed.1, hplayed.2⟩
  | none =>
    have hplay : s.audioPlayNote cfg now pitch duration = s.pushTone cfg ⟨now, cfg.norm pitch, duration⟩ := by
      simp [audioPlayNote, henabled, hfind]
    have hnew : cfg.norm pitch ∉ s.pitches := by
      intro hmem
      obtain ⟨tone, htone, hpitch⟩ := List.mem_map.mp hmem
      obtain ⟨i, hi, rfl⟩ := mem_stack.mp htone
      exact findPitch_none hfind i hi hpitch
    have hplayed := @pushTone_played _ cfg _ s log hsize h ⟨now, cfg.norm pitch, duration⟩ hnew
    rw [hplay]
    exact ⟨h.use (pushTone_slots hsize h _) hplayed.1, hplayed.2⟩

end AudioState

end Audio
end VialQmk
