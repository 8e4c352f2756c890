import Mathlib.Data.List.Chain
import VialQmk.Hid.Via

/-!
# Hid.Unlock

The unlock handshake over whole runs. `Progress` is the invariant: while an unlock is in progress,
the counter says how many of the last polls since the latest start were counted without a miss.
-/

namespace VialQmk
namespace Hid

open Lib Eeprom

instance (i : HidInput) (c : VialCmd) : Decidable (i.IsVial c) :=
  inferInstanceAs (Decidable (_ ∧ _ ∧ _))

def polls (is : List HidInput) : List HidInput := is.filter fun i => i.IsVial .unlockPoll

/-- A poll that comes more than 100 ms, modulo 2^16, after `p` restarted the timer. -/
def LaterThan (p q : HidInput) : Prop := q.timerElapsed p.timerRead > 100

/-- Polls in a row that all saw the whole unlock combo held, each long enough after the last. -/
structure HeldPolls (f : Firmware) (counted : List HidInput) : Prop where
  holding : ∀ i ∈ counted, f.holding i = true
  spaced : counted.IsChain LaterThan

/-- What is known of a board whose unlock is in progress after the messages `is`. -/
structure Progress (f : Firmware) (b : Board) (is : List HidInput) : Prop where
  trace : ∃ before start after missed counted,
    is = before ++ start :: after ∧ start.IsVial .unlockStart ∧
    (∀ i ∈ after, ¬ i.IsVial .unlockStart) ∧
    polls after = missed ++ counted ∧ HeldPolls f counted ∧
    b.vialUnlockCounter = vialUnlockCounterMax - counted.length ∧
    (counted.length : Int) < vialUnlockCounterMax ∧
    ∀ p ∈ counted.getLast?, b.vialUnlockTimer = p.timerRead

section Step

variable {f : Firmware} {b b' : Board} {i : HidInput}

theorem HidInput.IsVial.allowed {c : VialCmd} (h : i.IsVial c) (hc : c.allowedInProgress = true) :
    allowedInProgress i.data = true := by
  simp [allowedInProgress, h.1, h.2.2, hc]

theorem rawHidReceive_of_allowed (h : allowedInProgress i.data = true) :
    rawHidReceive f b i = rawHidSwitch f b i := by
  rw [rawHidReceive, if_neg]
  simp [h]

theorem rawHidReceive_unlockStart (h : i.IsVial .unlockStart) :
    (rawHidReceive f b i).1 = vialUnlockStart b i := by
  rw [rawHidReceive_of_allowed (h.allowed rfl), rawHidSwitch, h.1]
  simp only [vialHandleCmd, h.2.1, h.2.2, ne_eq, not_true_eq_false, if_false]

theorem rawHidReceive_unlockPoll (h : i.IsVial .unlockPoll) :
    (rawHidReceive f b i).1 = vialUnlockPoll f b i := by
  rw [rawHidReceive_of_allowed (h.allowed rfl), rawHidSwitch, h.1]
  simp only [vialHandleCmd, h.2.1, h.2.2, ne_eq, not_true_eq_false, if_false]

theorem Handled.unlock_other (h : Handled f b i b') (hs : ¬ i.IsVial .unlockStart)
    (hp : ¬ i.IsVial .unlockPoll) :
    b'.vialUnlockInProgress = b.vialUnlockInProgress ∧
      b'.vialUnlockCounter = b.vialUnlockCounter ∧ b'.vialUnlockTimer = b.vialUnlockTimer ∧
      (b'.vialUnlocked = true → b.vialUnlocked = true) := by
  cases h with
  | unlockStart hcmd => exact absurd hcmd hs
  | unlockPoll hcmd => exact absurd hcmd hp
  | lock _ => exact ⟨rfl, rfl, rfl, nofun⟩
  | reply | setLayoutOptions _ _ | setKeycode _ _ | keymapReset _ _ | eepromReset _ _
  | macroSetBuffer _ _ | macroReset _ | setBuffer _ | bootloaderJump _ _ | setEncoder _
  | settingsSet _ _ _ | settingsReset _ | tapDanceSet _ _ | comboSet _ _ | keyOverrideSet _ _ =>
    exact ⟨rfl, rfl, rfl, id⟩

def Counts (f : Firmware) (b : Board) (i : HidInput) : Prop :=
  i.timerElapsed b.vialUnlockTimer > 100 ∧ f.holding i = true

theorem vialUnlockPoll_counts (hb : b.vialUnlockInProgress = true) (hc : Counts f b i) :
    (vialUnlockPoll f b i).vialUnlockCounter = b.vialUnlockCounter - 1 ∧
      (vialUnlockPoll f b i).vialUnlockTimer = i.timerRead ∧
      ((vialUnlockPoll f b i).vialUnlockInProgress = true ↔ b.vialUnlockCounter ≠ 1) ∧
      ((vialUnlockPoll f b i).vialUnlocked = true ↔
        b.vialUnlocked = true ∨ b.vialUnlockCounter = 1) := by
  have hc' : i.timerElapsed b.vialUnlockTimer > 100 ∧ f.holding i = true := hc
  simp only [vialUnlockPoll, if_pos hb, if_pos hc']
  by_cases h : b.vialUnlockCounter = 1
  · simp [h]
  · have h' : ¬ b.vialUnlockCounter - 1 = 0 := by omega
    simp [h, h', hb]

theorem vialUnlockPoll_misses (hb : b.vialUnlockInProgress = true) (hc : ¬ Counts f b i) :
    vialUnlockPoll f b i = { b with vialUnlockCounter := vialUnlockCounterMax } := by
  have hc' : ¬ (i.timerElapsed b.vialUnlockTimer > 100 ∧ f.holding i = true) := hc
  simp only [vialUnlockPoll, if_pos hb, if_neg hc']

theorem vialUnlockPoll_idle (hb : b.vialUnlockInProgress = false) : vialUnlockPoll f b i = b := by
  simp [vialUnlockPoll, hb]

end Step

section Run

variable {f : Firmware} {b b' : Board} {is : List HidInput} {i : HidInput}

theorem polls_append_other (hp : ¬ i.IsVial .unlockPoll) : polls (is ++ [i]) = polls is := by
  simp [polls, hp]

theorem polls_append_poll (hp : i.IsVial .unlockPoll) : polls (is ++ [i]) = polls is ++ [i] := by
  simp [polls, hp]

theorem IsVial_start_ne_poll (h : i.IsVial .unlockPoll) : ¬ i.IsVial .unlockStart := by
  intro h'
  have := h.2.2.symm.trans h'.2.2
  cases this

theorem Progress.start (hs : i.IsVial .unlockStart) :
    Progress f (vialUnlockStart b i) (is ++ [i]) :=
  ⟨is, i, [], [], [], rfl, hs, nofun, rfl, ⟨nofun, .nil⟩, by simp [vialUnlockStart],
    by simp [vialUnlockCounterMax], nofun⟩

theorem Progress.other (h : Progress f b is) (hs : ¬ i.IsVial .unlockStart)
    (hp : ¬ i.IsVial .unlockPoll) (hc : b'.vialUnlockCounter = b.vialUnlockCounter)
    (ht : b'.vialUnlockTimer = b.vialUnlockTimer) : Progress f b' (is ++ [i]) := by
  obtain ⟨before, start, after, missed, counted, rfl, h1, h2, h3, h4, h5, h6, h7⟩ := h.trace
  refine ⟨before, start, after ++ [i], missed, counted, by simp, h1, ?_, ?_, h4, hc ▸ h5, h6,
    ht ▸ h7⟩
  · intro j hj
    rcases List.mem_append.mp hj with hj | hj
    · exact h2 j hj
    · rw [List.mem_singleton.mp hj]
      exact hs
  · rw [polls_append_other hp, h3]

theorem Progress.miss (h : Progress f b is) (hp : i.IsVial .unlockPoll) :
    Progress f { b with vialUnlockCounter := vialUnlockCounterMax } (is ++ [i]) := by
  obtain ⟨before, start, after, missed, counted, rfl, h1, h2, h3, -⟩ := h.trace
  refine ⟨before, start, after ++ [i], polls (after ++ [i]), [], by simp, h1, ?_, by simp,
    ⟨nofun, .nil⟩, by simp, by simp [vialUnlockCounterMax], nofun⟩
  intro j hj
  rcases List.mem_append.mp hj with hj | hj
  · exact h2 j hj
  · rw [List.mem_singleton.mp hj]
    exact IsVial_start_ne_poll hp

theorem HeldPolls.snoc {counted : List HidInput} (h : HeldPolls f counted) (hc : Counts f b i)
    (ht : ∀ p ∈ counted.getLast?, b.vialUnlockTimer = p.timerRead) :
    HeldPolls f (counted ++ [i]) := by
  constructor
  · intro j hj
    rcases List.mem_append.mp hj with hj | hj
    · exact h.holding j hj
    · rw [List.mem_singleton.mp hj]
      exact hc.2
  · refine h.spaced.append (.singleton i) ?_
    intro p hp q hq
    have hq : i = q := by simpa using hq
    subst hq
    have := hc.1
    rwa [ht p hp] at this

theorem Progress.count (h : Progress f b is) (hp : i.IsVial .unlockPoll) (hc : Counts f b i) :
    ∃ before start after missed counted,
      is ++ [i] = before ++ start :: (after ++ [i]) ∧ start.IsVial .unlockStart ∧
      (∀ j ∈ after ++ [i], ¬ j.IsVial .unlockStart) ∧
      polls (after ++ [i]) = missed ++ (counted ++ [i]) ∧ HeldPolls f (counted ++ [i]) ∧
      b.vialUnlockCounter = vialUnlockCounterMax - counted.length ∧
      (counted.length : Int) < vialUnlockCounterMax := by
  obtain ⟨before, start, after, missed, counted, rfl, h1, h2, h3, h4, h5, h6, h7⟩ := h.trace
  refine ⟨before, start, after, missed, counted, by simp, h1, ?_, ?_, h4.snoc hc h7, h5, h6⟩
  · intro j hj
    rcases List.mem_append.mp hj with hj | hj
    · exact h2 j hj
    · rw [List.mem_singleton.mp hj]
      exact IsVial_start_ne_poll hp
  · rw [polls_append_poll hp, h3, List.append_assoc]

theorem progress_step (h : b.vialUnlockInProgress = true → Progress f b is)
    (hb : (rawHidReceive f b i).1.vialUnlockInProgress = true) :
    Progress f (rawHidReceive f b i).1 (is ++ [i]) := by
  by_cases hs : i.IsVial .unlockStart
  · rw [rawHidReceive_unlockStart hs]
    exact .start hs
  by_cases hp : i.IsVial .unlockPoll
  · rw [rawHidReceive_unlockPoll hp] at hb ⊢
    cases hidle : b.vialUnlockInProgress with
    | false =>
      rw [vialUnlockPoll_idle hidle, hidle] at hb
      cases hb
    | true =>
      by_cases hc : Counts f b i
      · obtain ⟨e1, e2, e3, -⟩ := vialUnlockPoll_counts hidle hc
        obtain ⟨before, start, after, missed, counted, h1, h2, h3, h4, h5, h6, h7⟩ :=
          (h hidle).count hp hc
        have hne := e3.mp hb
        refine ⟨before, start, after ++ [i], missed, counted ++ [i], h1, h2, h3, h4, h5, ?_, ?_, ?_⟩
        · rw [e1, h6]
          simp
          omega
        · simp only [List.length_append, List.length_singleton]
          omega
        · intro p hp'
          have hp' : i = p := by simpa using hp'
          rw [e2, hp']
      · rw [vialUnlockPoll_misses hidle hc]
        exact (h hidle).miss hp
  · obtain ⟨e1, e2, e3, -⟩ := (rawHidReceive_handled f b i).unlock_other hs hp
    exact (h (e1 ▸ hb)).other hs hp e2 e3

theorem run_progress (hb : b.vialUnlockInProgress = false) (is : List HidInput)
    (h : (run f b is).vialUnlockInProgress = true) : Progress f (run f b is) is := by
  induction is using List.reverseRecOn with
  | nil =>
    rw [run_nil, hb] at h
    cases h
  | append_singleton is i ih =>
    rw [run_append_singleton] at h ⊢
    exact progress_step ih h

end Run

/-- **The unlock protocol.** On every run of a board that starts with no unlock in progress, a
message unlocks the locked board only if it is a poll, and since the latest `vial_unlock_start` the
last `VIAL_UNLOCK_COUNTER_MAX` polls or more saw the whole unlock combo held, each more than 100 ms
after the one before. While the unlock is in progress, a message outside the allow list changes
nothing. -/
theorem unlock_protocol (f : Firmware) (b : Board) (hidle : b.vialUnlockInProgress = false)
    (is : List HidInput) (i : HidInput) :
    ((run f b is).vialUnlocked = false → (run f b (is ++ [i])).vialUnlocked = true →
      i.IsVial .unlockPoll ∧
      ∃ before start after missed counted,
        is = before ++ start :: after ∧ start.IsVial .unlockStart ∧
        (∀ j ∈ after, ¬ j.IsVial .unlockStart) ∧
        polls (after ++ [i]) = missed ++ counted ∧
        vialUnlockCounterMax ≤ counted.length ∧ HeldPolls f counted) ∧
    ((run f b is).vialUnlockInProgress = true → allowedInProgress i.data = false →
      run f b (is ++ [i]) = run f b is) := by
  rw [run_append_singleton]
  constructor
  · intro hbefore hafter
    generalize hr : run f b is = r at *
    by_cases hs : i.IsVial .unlockStart
    · rw [rawHidReceive_unlockStart hs] at hafter
      exact absurd (hbefore.symm.trans hafter) (by decide)
    by_cases hp : i.IsVial .unlockPoll
    · refine ⟨hp, ?_⟩
      rw [rawHidReceive_unlockPoll hp] at hafter
      cases hprog : r.vialUnlockInProgress with
      | false =>
        rw [vialUnlockPoll_idle hprog, hbefore] at hafter
        cases hafter
      | true =>
        have hinv : Progress f r is := by
          rw [← hr] at hprog ⊢
          exact run_progress hidle is hprog
        by_cases hc : Counts f r i
        · have hone : r.vialUnlockCounter = 1 := by
            rcases (vialUnlockPoll_counts hprog hc).2.2.2.mp hafter with h | h
            · rw [hbefore] at h
              cases h
            · exact h
          obtain ⟨before, start, after, missed, counted, h1, h2, h3, h4, h5, h6, -⟩ :=
            hinv.count hp hc
          refine ⟨before, start, after, missed, counted ++ [i], ?_, h2,
            fun j hj => h3 j (List.mem_append_left _ hj), h4, ?_, h5⟩
          · have h1 : is ++ [i] = (before ++ start :: after) ++ [i] := by simpa using h1
            exact List.append_cancel_right h1
          · simp only [List.length_append, List.length_singleton]
            omega
        · rw [vialUnlockPoll_misses hprog hc] at hafter
          exact absurd (hbefore.symm.trans hafter) (by decide)
    · obtain ⟨-, -, -, h⟩ := (rawHidReceive_handled f r i).unlock_other hs hp
      rw [h hafter] at hbefore
      cases hbefore
  · intro hprog ha
    rw [rawHidReceive_filtered hprog ha]

def unlockRun : List HidInput :=
  .ofBytes [0xFE, 0x06] 0 ::
    (List.range 49).map fun k => .ofBytes [0xFE, 0x07] (101 * (k + 1)).toUInt16

/-- The fiftieth poll unlocks. -/
theorem unlock_protocol_onePad :
    ∃ before start after missed counted,
      unlockRun = before ++ start :: after ∧ start.IsVial .unlockStart ∧
      (∀ j ∈ after, ¬ j.IsVial .unlockStart) ∧
      polls (after ++ [.ofBytes [0xFE, 0x07] 5050]) = missed ++ counted ∧
      vialUnlockCounterMax ≤ counted.length ∧ HeldPolls .onePad counted :=
  ((unlock_protocol .onePad .blank rfl unlockRun (.ofBytes [0xFE, 0x07] 5050)).1
    (by decide +kernel) (by decide +kernel)).2

end Hid
end VialQmk
