import VialQmk.Keys.Wpm

/-!
# Keys.WpmRuns

Runs of `update_wpm` and `decay_wpm`, beside a log of the calls: when the sample period began, and how many presses
were counted in the periods of the sample, the newest first. The ring, its indices and the timers are the log's.

* `Tracks.type`, `Tracks.decay`: a call keeps the code and the log together.
* `wpm_safe`: with 2 to 256 sample periods, in each run whose decays are timely, the reported number stays within its
  limits, and the next timely decay has no fault.
-/

namespace VialQmk
namespace Keys

open Lib

/-- The milliseconds at which `decay_wpm` reads the timer. -/
structure WpmTimes where
  elapsed : Nat
  wpmTimer : Nat
  latency : Nat
  smoothingTimer : Nat
  elapsed_le : elapsed ≤ wpmTimer
  wpmTimer_le : wpmTimer ≤ latency
  latency_le : latency ≤ smoothingTimer

def WpmTimes.reads (t : WpmTimes) : WpmReads :=
  ⟨BitVec.ofNat 32 t.elapsed, BitVec.ofNat 32 t.wpmTimer, BitVec.ofNat 32 t.latency,
    BitVec.ofNat 32 t.smoothingTimer⟩

/-- What the calls so far say: the time of the last one, when the period began and the filter last took a number, and
the presses of the periods, the newest first. -/
structure WpmLog where
  now : Nat
  began : Nat
  filtered : Nat
  counts : List Int

namespace WpmLog

def init : WpmLog := ⟨0, 0, 0, [0, 0]⟩

variable (c : WpmConfig) (log : WpmLog)

def press (keycode : UInt16) (n : Int) : Int :=
  let n := if c.wpmKeycode keycode && decide (n < 32767) then n + 1 else n
  if c.allowCountRegression && c.wpmRegressCount keycode != 0 && decide (-32768 < n) then n - 1 else n

def type (keycode : UInt16) : WpmLog := { log with counts := log.counts.modifyHead (press c keycode) }

variable (t : WpmTimes)

/-- A period that has lasted long enough is followed by a new one. -/
def begins : Bool := decide (c.periodDuration < t.elapsed - log.began)

def decay : WpmLog where
  now := t.smoothingTimer
  began := if log.begins c t then t.wpmTimer else log.began
  filtered := if !c.unfiltered && decide (100 < t.latency - log.filtered) then t.smoothingTimer else log.filtered
  counts :=
    if c.launchControl && decide (log.counts.sum ≤ 0) then [0]
    else if log.begins c t then 0 :: log.counts.take (c.maxPeriods - 1)
    else log.counts

/-- The milliseconds of the sample: its whole periods, and what has passed of the last one. -/
def covered : Nat := (log.counts.length - 1) * c.periodDuration + (t.elapsed - log.began)

def target : Int :=
  if log.counts.sum < 2 then 0
  else min 240 (60000 * log.counts.sum / (log.covered c t * c.estimatedWordSize))

/-- When a decay comes in time: not in the millisecond in which the first period of a sample begins, before the sample
lasts too long to be multiplied with the size of a word, with no more presses in it than can be multiplied with the
milliseconds of a minute, and, where it filters, soon enough for the step from the reported number. -/
structure Timely (s : Wpm) : Prop where
  began : (log.counts.length - 1) * c.periodDuration = 0 → log.began < t.elapsed
  covered : log.covered c t < 2147483648
  words : log.covered c t * c.estimatedWordSize < 4294967296
  presses : log.counts.sum ≤ 35791
  latency : c.unfiltered = false → t.latency - log.filtered < 2147483648
  step : c.unfiltered = false → 100 < t.latency - log.filtered →
    ((t.latency - log.filtered : Nat) - 100) * ((log.target c t - s.currentWpm).natAbs : Int) < 100

end WpmLog

/-- The states that calls lead to, with their log; each decay meets a condition. -/
inductive WpmRun (c : WpmConfig) (Meets : WpmLog → WpmTimes → Wpm → Prop) : WpmLog → Wpm → Prop where
  | init : WpmRun c Meets .init .init
  | update {log : WpmLog} {s : Wpm} (keycode : UInt16) :
      WpmRun c Meets log s → WpmRun c Meets (log.type c keycode) (c.updateWpm s keycode)
  | decay {log : WpmLog} {s s' : Wpm} {t : WpmTimes} :
      WpmRun c Meets log s → log.now ≤ t.elapsed → Meets log t s → c.decayWpm s t.reads = .ok s' →
      WpmRun c Meets (log.decay c t) s'

/-- The presses in the ring, from the current period back, and then those behind it. -/
def ringCounts (s : Wpm) : List Int :=
  (s.periodPresses.readBlock 0 (s.currentPeriod + 1)).reverse ++
    (s.periodPresses.readBlock (s.currentPeriod + 1) (s.periods - s.currentPeriod)).reverse

/-- The indices are in the array. The periods behind the current one are from the last round of the ring, or there is
one, and nothing was counted there so far, or there is none. -/
structure Ring (c : WpmConfig) (s : Wpm) : Prop where
  current_le : s.currentPeriod ≤ s.periods
  periods_lt : s.periods < c.maxPeriods
  phase : s.periods = c.maxPeriods - 1 ∨ s.periods = s.currentPeriod ∨
    (s.periods = s.currentPeriod + 1 ∧ ∀ i, s.currentPeriod < i → s.periodPresses i = 0)

section Ring

variable {c : WpmConfig} {s : Wpm}

def withCurrent (s : Wpm) (n : Int) : Wpm :=
  { s with periodPresses := Function.update s.periodPresses s.currentPeriod n }

theorem ringCounts_length (h : s.currentPeriod ≤ s.periods) : (ringCounts s).length = s.periods + 1 := by
  simp only [ringCounts, List.length_append, List.length_reverse, Mem.readBlock_length]
  omega

theorem ringCounts_sum (h : s.currentPeriod ≤ s.periods) :
    (s.periodPresses.readBlock 0 (s.periods + 1)).sum = (ringCounts s).sum := by
  have hsplit : s.periods + 1 = (s.currentPeriod + 1) + (s.periods - s.currentPeriod) := by omega
  rw [ringCounts, List.sum_append, List.sum_reverse, List.sum_reverse, hsplit, Mem.readBlock_append, List.sum_append,
    Nat.zero_add]

theorem readBlock_update_of_not {m : Mem Int} {a n x : Nat} (v : Int) (h : x < a ∨ a + n ≤ x) :
    Mem.readBlock (Function.update m x v) a n = Mem.readBlock m a n :=
  Mem.readBlock_congr fun i hi => Function.update_of_ne (by omega) _ _

theorem updateWpm_eq (c : WpmConfig) (s : Wpm) (keycode : UInt16) :
    c.updateWpm s keycode = withCurrent s (WpmLog.press c keycode (s.periodPresses s.currentPeriod)) := by
  unfold WpmConfig.updateWpm WpmLog.press withCurrent
  split
  · simp only [Function.update_self, Function.update_idem]
    split <;> rfl
  · dsimp only
    split
    · rfl
    · rw [Function.update_eq_self]

theorem ringCounts_update (s : Wpm) (n : Int) : ringCounts (withCurrent s n) = n :: (ringCounts s).tail := by
  simp only [ringCounts, withCurrent, Mem.readBlock_succ, List.reverse_append, List.reverse_singleton, List.cons_append,
    List.nil_append, List.tail_cons, Nat.zero_add, Function.update_self]
  rw [readBlock_update_of_not n (.inr (by omega)), readBlock_update_of_not n (.inl (by omega))]

theorem ringCounts_cons (s : Wpm) :
    ringCounts s = s.periodPresses s.currentPeriod :: (ringCounts s).tail := by
  have h := ringCounts_update s (s.periodPresses s.currentPeriod)
  rwa [withCurrent, Function.update_eq_self] at h

theorem Ring.update (h : Ring c s) (n : Int) : Ring c (withCurrent s n) where
  current_le := h.current_le
  periods_lt := h.periods_lt
  phase := h.phase.imp_right (Or.imp_right fun ⟨hp, hz⟩ =>
    ⟨hp, fun i hi => (Function.update_of_ne (Nat.ne_of_gt hi) _ _).trans (hz i hi)⟩)

/-- `s` with the next period begun, in another place and with another number of periods. -/
def nextPeriod (s : Wpm) (current periods : Nat) : Wpm :=
  { s with currentPeriod := current, periods := periods, periodPresses := Function.update s.periodPresses current 0 }

theorem ringCounts_next (s : Wpm) (periods : Nat) :
    ringCounts (nextPeriod s (s.currentPeriod + 1) periods) =
      0 :: ((s.periodPresses.readBlock 0 (s.currentPeriod + 1)).reverse ++
        (s.periodPresses.readBlock (s.currentPeriod + 2) (periods - (s.currentPeriod + 1))).reverse) := by
  simp only [ringCounts, nextPeriod]
  rw [Mem.readBlock_succ _ _ (s.currentPeriod + 1), List.reverse_append, Nat.zero_add, Function.update_self,
    readBlock_update_of_not 0 (.inr (by omega)), readBlock_update_of_not 0 (.inl (by omega))]
  rfl

theorem take_append_singleton {α : Type} {l : List α} {x : α} {n : Nat} (h : l.length = n) :
    (l ++ [x]).take n = l := by
  rw [List.take_append_of_le_length (Nat.le_of_eq h.symm), List.take_of_length_le (Nat.le_of_eq h)]

theorem Ring.next (h : Ring c s) (hmax : c.maxPeriods ≤ 256) :
    let s' := nextPeriod s ((s.currentPeriod + 1) % c.maxPeriods % 256)
      ((if s.periods < c.maxPeriods - 1 then s.periods + 1 else c.maxPeriods - 1) % 256)
    Ring c s' ∧ ringCounts s' = 0 :: (ringCounts s).take (c.maxPeriods - 1) := by
  obtain ⟨hle, hlt, hphase⟩ := h
  have hlen := ringCounts_length hle
  by_cases hwrap : s.currentPeriod + 1 = c.maxPeriods
  · -- from the end of the array to its start
    have hcurrent : (s.currentPeriod + 1) % c.maxPeriods % 256 = 0 := by rw [hwrap, Nat.mod_self]
    have hperiods : (if s.periods < c.maxPeriods - 1 then s.periods + 1 else c.maxPeriods - 1) % 256 =
        s.currentPeriod := by
      rw [if_neg (by omega)]
      omega
    simp only [hcurrent, hperiods]
    refine ⟨⟨Nat.zero_le _, by simp only [nextPeriod]; omega, .inl (by simp only [nextPeriod]; omega)⟩, ?_⟩
    have hall : s.periods - s.currentPeriod = 0 := by omega
    simp only [ringCounts, nextPeriod, hall, Mem.readBlock, List.reverse_cons, List.reverse_nil, List.nil_append,
      List.append_nil, Function.update_self, List.singleton_append, Nat.sub_zero]
    rw [take_append_singleton (by simp; omega), readBlock_update_of_not 0 (.inl (by omega))]
  · have hcurrent : (s.currentPeriod + 1) % c.maxPeriods % 256 = s.currentPeriod + 1 := by
      rw [Nat.mod_eq_of_lt (a := s.currentPeriod + 1) (by omega), Nat.mod_eq_of_lt (by omega)]
    rw [hcurrent]
    by_cases hfull : s.periods = c.maxPeriods - 1
    · have hperiods : (if s.periods < c.maxPeriods - 1 then s.periods + 1 else c.maxPeriods - 1) % 256 =
          s.periods := by
        rw [if_neg (by omega), Nat.mod_eq_of_lt (by omega), hfull]
      simp only [hperiods]
      refine ⟨⟨by simp only [nextPeriod]; omega, hlt, .inl hfull⟩, ?_⟩
      have hrest : s.periods - s.currentPeriod = s.periods - (s.currentPeriod + 1) + 1 := by omega
      rw [ringCounts_next, ringCounts, hrest, Mem.readBlock.eq_2 _ (s.currentPeriod + 1), List.reverse_cons,
        ← List.append_assoc, take_append_singleton (by simp; omega)]
    · have hperiods : (if s.periods < c.maxPeriods - 1 then s.periods + 1 else c.maxPeriods - 1) % 256 =
          s.periods + 1 := by
        rw [if_pos (by omega), Nat.mod_eq_of_lt (by omega)]
      simp only [hperiods]
      rw [ringCounts_next, List.take_of_length_le (by omega), ringCounts]
      rcases hphase with hp | hp | ⟨hp, hzero⟩
      · exact absurd hp hfull
      · refine ⟨⟨by simp only [nextPeriod]; omega, by simp only [nextPeriod]; omega,
          .inr (.inl (by simp only [nextPeriod, hp]))⟩, ?_⟩
        rw [hp, Nat.sub_self, Nat.sub_self]
        rfl
      · refine ⟨⟨by simp only [nextPeriod]; omega, by simp only [nextPeriod]; omega,
          .inr (.inr ⟨by simp only [nextPeriod, hp], fun i hi => ?_⟩)⟩, ?_⟩
        · exact (Function.update_of_ne (Nat.ne_of_gt hi) _ _).trans (hzero i (Nat.lt_of_succ_lt hi))
        · have hone : s.periods + 1 - (s.currentPeriod + 1) = 1 := by omega
          have hone' : s.periods - s.currentPeriod = 1 := by omega
          rw [hone, hone']
          simp only [Mem.readBlock, hzero _ (Nat.lt_succ_self _), hzero (s.currentPeriod + 2) (by omega)]

theorem ring_fresh (c : WpmConfig) (s : Wpm) :
    Ring c (nextPeriod s 0 0) ∧ ringCounts (nextPeriod s 0 0) = [0] := by
  refine ⟨⟨Nat.le_refl _, c.maxPeriods_pos, .inr (.inl rfl)⟩, ?_⟩
  simp [ringCounts, nextPeriod, Mem.readBlock]

end Ring

structure Tracks (c : WpmConfig) (log : WpmLog) (s : Wpm) : Prop where
  wpmTimer : s.wpmTimer = BitVec.ofNat 32 log.began
  smoothingTimer : s.smoothingTimer = BitVec.ofNat 32 log.filtered
  began_le : log.began ≤ log.now
  filtered_le : log.filtered ≤ log.now
  ring : Ring c s
  counts : log.counts = ringCounts s

section Tracks

variable {c : WpmConfig} {log : WpmLog} {s : Wpm} {t : WpmTimes}

theorem tracks_init (hmin : 2 ≤ c.maxPeriods) : Tracks c .init .init where
  wpmTimer := rfl
  smoothingTimer := rfl
  began_le := Nat.le_refl _
  filtered_le := Nat.le_refl _
  ring := ⟨Nat.zero_le _, hmin, .inr (.inr ⟨rfl, fun _ _ => rfl⟩)⟩
  counts := rfl

theorem Tracks.type (h : Tracks c log s) (keycode : UInt16) :
    Tracks c (log.type c keycode) (c.updateWpm s keycode) := by
  rw [updateWpm_eq]
  refine ⟨h.wpmTimer, h.smoothingTimer, h.began_le, h.filtered_le, h.ring.update _, ?_⟩
  rw [ringCounts_update, WpmLog.type, h.counts, ringCounts_cons s]
  rfl

theorem toInt_ofNat_sub {a b : Nat} (hle : b ≤ a) (hlt : a - b < 2147483648) :
    (BitVec.ofNat 32 a - BitVec.ofNat 32 b).toInt = ((a - b : Nat) : Int) := by
  have hsub : BitVec.ofNat 32 a - BitVec.ofNat 32 b = BitVec.ofNat 32 (a - b) := by
    apply BitVec.eq_of_toNat_eq
    simp only [BitVec.toNat_sub, BitVec.toNat_ofNat]
    omega
  rw [hsub, BitVec.toInt_eq_toNat_of_lt (by simp only [BitVec.toNat_ofNat]; omega), BitVec.toNat_ofNat,
    Nat.mod_eq_of_lt (by omega)]

theorem WpmLog.Timely.elapsed_lt (h : log.Timely c t s) : t.elapsed - log.began < 2147483648 :=
  Nat.lt_of_le_of_lt (Nat.le_add_left _ _) h.covered

theorem Tracks.elapsed (h : Tracks c log s) (hnow : log.now ≤ t.elapsed) (htimely : log.Timely c t s) :
    (t.reads.elapsed - s.wpmTimer).toInt = ((t.elapsed - log.began : Nat) : Int) := by
  rw [h.wpmTimer]
  exact toInt_ofNat_sub (Nat.le_trans h.began_le hnow) htimely.elapsed_lt

theorem Tracks.latency (h : Tracks c log s) (hnow : log.now ≤ t.elapsed) (htimely : log.Timely c t s)
    (hfilter : c.unfiltered = false) :
    (t.reads.latency - s.smoothingTimer).toInt = ((t.latency - log.filtered : Nat) : Int) := by
  have hle := t.elapsed_le
  have hle' := t.wpmTimer_le
  have hfiltered := h.filtered_le
  rw [h.smoothingTimer]
  exact toInt_ofNat_sub (by omega) (htimely.latency hfilter)

theorem Tracks.length (h : Tracks c log s) : log.counts.length - 1 = s.periods := by
  rw [h.counts, ringCounts_length h.ring.current_le, Nat.add_sub_cancel]

theorem Tracks.presses (h : Tracks c log s) : WpmConfig.ringPresses s = max 0 log.counts.sum := by
  rw [WpmConfig.ringPresses, ringCounts_sum h.ring.current_le, h.counts]

theorem Tracks.covered (h : Tracks c log s) (hnow : log.now ≤ t.elapsed) (htimely : log.Timely c t s) :
    c.covered s t.reads = log.covered c t := by
  rw [WpmConfig.covered, h.elapsed hnow htimely, WpmLog.covered, h.length, Int.natCast_add, Int.natCast_mul]

theorem Tracks.measurable (h : Tracks c log s) (hnow : log.now ≤ t.elapsed) (htimely : log.Timely c t s) :
    c.Measurable s t.reads := by
  have hcovered := h.covered hnow htimely
  have hlt := htimely.covered
  have hmod : c.covered s t.reads % 4294967296 = log.covered c t := by omega
  refine ⟨h.ring.periods_lt, ?_, ?_, by omega, ?_⟩
  · have hpresses := htimely.presses
    rw [h.presses]
    omega
  · have hbegan := htimely.began
    have hle := Nat.le_trans h.began_le hnow
    have hpos : 0 < log.covered c t := by
      rw [WpmLog.covered]
      omega
    omega
  · rw [hmod]
    exact_mod_cast htimely.words

theorem Tracks.measured (h : Tracks c log s) (hnow : log.now ≤ t.elapsed) (htimely : log.Timely c t s) :
    c.measured s t.reads = log.target c t := by
  have hcovered := h.covered hnow htimely
  have hlt := htimely.covered
  have hmod : c.covered s t.reads % 4294967296 = log.covered c t := by omega
  rw [WpmConfig.measured, WpmLog.target, h.presses, hmod]
  by_cases hfew : log.counts.sum < 2
  · rw [if_pos hfew, if_pos (by omega)]
  · rw [if_neg hfew, if_neg (by omega), Int.max_eq_right (by omega)]

theorem Tracks.smooth (h : Tracks c log s) (hnow : log.now ≤ t.elapsed) (htimely : log.Timely c t s) :
    c.Smooth s t.reads := by
  intro hfilter
  rw [WpmConfig.gap, h.latency hnow htimely hfilter, h.measured hnow htimely]
  by_cases hstep : 100 < t.latency - log.filtered
  · have hsoon := htimely.step hfilter hstep
    rw [if_pos (by omega)]
    generalize (log.target c t - s.currentWpm).natAbs = gap at hsoon
    have hmul : ((t.latency - log.filtered : Nat) : Int) * gap =
        ((t.latency - log.filtered : Nat) - 100) * gap + 100 * gap := by rw [Int.sub_mul, Int.sub_add_cancel]
    have hpos : 0 ≤ ((t.latency - log.filtered : Nat) : Int) * gap :=
      Int.mul_nonneg (Int.natCast_nonneg _) (Int.natCast_nonneg _)
    omega
  · -- without a step to a new number the latency is within the 100 ms
    rw [if_neg (by omega)]
    generalize ((s.nextWpm : Int) - s.prevWpm).natAbs = gap
    have hle : ((t.latency - log.filtered : Nat) : Int) * gap ≤ 100 * gap :=
      Int.mul_le_mul_of_nonneg_right (by omega) (Int.natCast_nonneg _)
    have hpos : 0 ≤ ((t.latency - log.filtered : Nat) : Int) * gap :=
      Int.mul_nonneg (Int.natCast_nonneg _) (Int.natCast_nonneg _)
    omega

theorem Tracks.ring_decay (hmax : c.maxPeriods ≤ 256) (h : Tracks c log s) (hnow : log.now ≤ t.elapsed)
    (htimely : log.Timely c t s) :
    let s' := c.launch (c.advance s (t.reads.elapsed - s.wpmTimer).toInt t.reads) (WpmConfig.ringPresses s)
    Ring c s' ∧ (log.decay c t).counts = ringCounts s' ∧
      s'.wpmTimer = BitVec.ofNat 32 (log.decay c t).began := by
  have hbegins : (c.periodDuration : Int) < (t.reads.elapsed - s.wpmTimer).toInt ↔ log.begins c t = true := by
    rw [h.elapsed hnow htimely, WpmLog.begins, decide_eq_true_iff]
    omega
  have hpresses : (WpmConfig.ringPresses s = 0) ↔ log.counts.sum ≤ 0 := by
    rw [h.presses]
    omega
  have hadvance : Ring c (c.advance s (t.reads.elapsed - s.wpmTimer).toInt t.reads) ∧
      (if log.begins c t then 0 :: log.counts.take (c.maxPeriods - 1) else log.counts) =
        ringCounts (c.advance s (t.reads.elapsed - s.wpmTimer).toInt t.reads) ∧
      (c.advance s (t.reads.elapsed - s.wpmTimer).toInt t.reads).wpmTimer =
        BitVec.ofNat 32 (if log.begins c t then t.wpmTimer else log.began) := by
    rw [WpmConfig.advance]
    by_cases hb : log.begins c t = true
    · obtain ⟨hring, hcounts⟩ := h.ring.next hmax
      rw [if_pos (hbegins.mpr hb), if_pos hb, if_pos hb, h.counts]
      exact ⟨⟨hring.current_le, hring.periods_lt, hring.phase⟩, hcounts.symm, rfl⟩
    · rw [if_neg (fun hlt => hb (hbegins.mp hlt)), if_neg hb, if_neg hb]
      exact ⟨h.ring, h.counts, h.wpmTimer⟩
  obtain ⟨hring, hcounts, htimer⟩ := hadvance
  generalize c.advance s (t.reads.elapsed - s.wpmTimer).toInt t.reads = u at hring hcounts htimer
  simp only [WpmConfig.launch, WpmLog.decay, hpresses]
  by_cases hfresh : (c.launchControl && decide (log.counts.sum ≤ 0)) = true
  · obtain ⟨hring', hcounts'⟩ := ring_fresh c u
    rw [if_pos hfresh, if_pos hfresh]
    exact ⟨hring', hcounts'.symm, htimer⟩
  · rw [if_neg hfresh, if_neg hfresh]
    exact ⟨hring, hcounts, htimer⟩

theorem smooth_ring {u s' : Wpm} {n : Int} {r : WpmReads} (hok : WpmConfig.smooth u n r = .ok s') (h : Ring c u) :
    Ring c s' ∧ ringCounts s' = ringCounts u ∧ s'.wpmTimer = u.wpmTimer ∧
      s'.smoothingTimer = if 100 < (r.latency - u.smoothingTimer).toInt then r.smoothingTimer else u.smoothingTimer := by
  have hring : ∀ {v : Wpm}, v.currentPeriod = u.currentPeriod → v.periods = u.periods →
      v.periodPresses = u.periodPresses → Ring c v :=
    fun hc hp hm => ⟨by rw [hc, hp]; exact h.current_le, hp ▸ h.periods_lt, by rw [hc, hp, hm]; exact h.phase⟩
  by_cases hstep : 100 < (r.latency - u.smoothingTimer).toInt
  · simp only [WpmConfig.smooth, if_pos hstep] at hok ⊢
    cases hproduct : int32 ((r.latency - u.smoothingTimer).toInt * (((n % 256).toNat : Int) - u.currentWpm)) with
    | error fault =>
      rw [hproduct] at hok
      cases hok
    | ok product =>
      rw [hproduct] at hok
      cases hok
      exact ⟨hring rfl rfl rfl, rfl, rfl, rfl⟩
  · simp only [WpmConfig.smooth, if_neg hstep] at hok ⊢
    cases hproduct : int32 ((r.latency - u.smoothingTimer).toInt * ((u.nextWpm : Int) - u.prevWpm)) with
    | error fault =>
      rw [hproduct] at hok
      cases hok
    | ok product =>
      rw [hproduct] at hok
      cases hok
      exact ⟨hring rfl rfl rfl, rfl, rfl, rfl⟩

theorem Tracks.decay (hmax : c.maxPeriods ≤ 256) (h : Tracks c log s) (hnow : log.now ≤ t.elapsed)
    (htimely : log.Timely c t s) {s' : Wpm} (hok : c.decayWpm s t.reads = .ok s') :
    Tracks c (log.decay c t) s' := by
  obtain ⟨wpmNow, hmeasure, -⟩ := (h.measurable hnow htimely).measure_ok
  obtain ⟨hring, hcounts, htimer⟩ := h.ring_decay hmax hnow htimely
  obtain ⟨-, hsmoothing, -, -⟩ :=
    WpmConfig.launch_advance c s (t.reads.elapsed - s.wpmTimer).toInt (WpmConfig.ringPresses s) t.reads
  have hbegan := h.began_le
  have hfiltered := h.filtered_le
  have hle := t.elapsed_le
  have hle' := t.wpmTimer_le
  have hle'' := t.latency_le
  have hbegan' : (log.decay c t).began ≤ (log.decay c t).now := by
    simp only [WpmLog.decay]
    split <;> omega
  have hfiltered' : (log.decay c t).filtered ≤ (log.decay c t).now := by
    simp only [WpmLog.decay]
    split <;> omega
  simp only [WpmConfig.decayWpm, hmeasure, WpmConfig.ok_bind] at hok
  generalize c.launch (c.advance s (t.reads.elapsed - s.wpmTimer).toInt t.reads) (WpmConfig.ringPresses s) = u
    at hok hring hcounts htimer hsmoothing
  by_cases hfilter : c.unfiltered = true
  · rw [if_pos hfilter] at hok
    cases hok
    refine ⟨htimer, ?_, hbegan', hfiltered', ⟨hring.current_le, hring.periods_lt, hring.phase⟩, hcounts⟩
    simp only [WpmLog.decay, hfilter]
    exact hsmoothing.trans h.smoothingTimer
  · have hfilter := Bool.eq_false_iff.mpr hfilter
    have hlatency := h.latency hnow htimely hfilter
    rw [if_neg (by rw [hfilter]; exact Bool.false_ne_true)] at hok
    obtain ⟨hring', hcounts', htimer', hsmoothing'⟩ := smooth_ring hok hring
    refine ⟨htimer'.trans htimer, ?_, hbegan', hfiltered', hring', hcounts.trans hcounts'.symm⟩
    have hfiltered : (log.decay c t).filtered =
        if 100 < t.latency - log.filtered then t.smoothingTimer else log.filtered := by
      simp [WpmLog.decay, hfilter]
    rw [hsmoothing', hsmoothing, hlatency, hfiltered, h.smoothingTimer]
    by_cases hstep : 100 < t.latency - log.filtered
    · rw [if_pos (by omega), if_pos hstep]
      rfl
    · rw [if_neg (by omega), if_neg hstep]

end Tracks

namespace WpmRun

variable {c : WpmConfig} {log : WpmLog} {s : Wpm}

theorem updates {Meets : WpmLog → WpmTimes → Wpm → Prop} (keycodes : List UInt16) (h : WpmRun c Meets log s) :
    WpmRun c Meets (keycodes.foldl (WpmLog.type c) log) (keycodes.foldl c.updateWpm s) := by
  induction keycodes generalizing log s with
  | nil => exact h
  | cons keycode keycodes ih => exact ih (h.update keycode)

theorem tracks (hmin : 2 ≤ c.maxPeriods) (hmax : c.maxPeriods ≤ 256)
    (h : WpmRun c (fun log t s => log.Timely c t s) log s) : Tracks c log s ∧ WpmConfig.Bounded c s := by
  induction h with
  | init =>
    exact ⟨tracks_init hmin, ⟨Nat.zero_le _, fun _ => ⟨Nat.le_refl _, Nat.le_refl _⟩⟩, Nat.zero_le _, Nat.zero_le _⟩
  | update keycode _ ih => exact ⟨ih.1.type keycode, ih.2.same (WpmConfig.updateWpm_same c _ keycode)⟩
  | decay _ hnow htimely hdecay ih =>
    obtain ⟨htracks, hbounded⟩ := ih
    obtain ⟨s', hok, hbounded'⟩ := WpmConfig.decayWpm_ok hbounded (htracks.measurable hnow htimely)
      (htracks.smooth hnow htimely)
    rw [hok] at hdecay
    cases hdecay
    exact ⟨htracks.decay hmax hnow htimely hok, hbounded'⟩

/-- With 2 to 256 sample periods: in a run whose decays are timely the reported number keeps its limits, and the next
timely decay has no fault. -/
theorem wpm_safe {c : WpmConfig} (hmin : 2 ≤ c.maxPeriods) (hmax : c.maxPeriods ≤ 256) {log : WpmLog} {s : Wpm}
    (h : WpmRun c (fun log t s => log.Timely c t s) log s) :
    c.InLimits s ∧ ∀ t : WpmTimes, log.now ≤ t.elapsed → log.Timely c t s →
      ∃ s', c.decayWpm s t.reads = .ok s' ∧ c.InLimits s' := by
  obtain ⟨htracks, hbounded⟩ := h.tracks hmin hmax
  refine ⟨hbounded.limits, fun t hnow htimely => ?_⟩
  obtain ⟨s', hok, hbounded'⟩ := WpmConfig.decayWpm_ok hbounded (htracks.measurable hnow htimely)
    (htracks.smooth hnow htimely)
  exact ⟨s', hok, hbounded'.limits⟩

def standard : WpmConfig where
  maxPeriods := 25
  maxPeriods_pos := Nat.succ_pos 24
  sampleSeconds := 5
  sampleSeconds_lt := Nat.le_add_right 5001 2147478647
  estimatedWordSize := 5
  estimatedWordSize_pos := Nat.succ_pos 4
  unfiltered := false
  allowCountRegression := false
  launchControl := false
  wpmKeycode _ := true
  wpmRegressCount _ := 0

def atTime (now : Nat) : WpmTimes := ⟨now, now, now, now, Nat.le_refl _, Nat.le_refl _, Nat.le_refl _⟩

def typeAndDecay (x : WpmLog × Wpm) (n now : Nat) : WpmLog × Wpm :=
  let log := (List.replicate n 4).foldl (WpmLog.type standard) x.1
  let s := (List.replicate n 4).foldl standard.updateWpm x.2
  (log.decay standard (atTime now), (standard.decayWpm s (atTime now).reads).toOption.getD s)

theorem typeAndDecay_run {Meets : WpmLog → WpmTimes → Wpm → Prop} {x : WpmLog × Wpm} {n t : Nat}
    (h : WpmRun standard Meets x.1 x.2) (hnow : ((List.replicate n 4).foldl (WpmLog.type standard) x.1).now ≤ t)
    (hmeets : Meets ((List.replicate n 4).foldl (WpmLog.type standard) x.1) (atTime t)
      ((List.replicate n 4).foldl standard.updateWpm x.2))
    (hok : (standard.decayWpm ((List.replicate n 4).foldl standard.updateWpm x.2)
      (atTime t).reads).toOption.isSome = true) :
    WpmRun standard Meets (typeAndDecay x n t).1 (typeAndDecay x n t).2 := by
  refine (updates (List.replicate n 4) h).decay hnow hmeets ?_
  cases hdecay : standard.decayWpm ((List.replicate n 4).foldl standard.updateWpm x.2) (atTime t).reads with
  | error fault =>
    rw [hdecay] at hok
    cases hok
  | ok s => simp [typeAndDecay, hdecay, Except.toOption]

/-- Two keys in the first 101 ms, a new period, and three keys more. -/
def typed : WpmLog × Wpm :=
  typeAndDecay (typeAndDecay (typeAndDecay (.init, .init) 2 101) 0 202) 3 303

theorem wpm_safe_start : (typed.2.currentWpm = 119 ∧ standard.InLimits typed.2) ∧
    ∃ s', standard.decayWpm typed.2 (atTime 404).reads = .ok s' ∧ standard.InLimits s' := by
  have h₁ := typeAndDecay_run (x := (.init, .init)) (n := 2) (t := 101)
    (.init : WpmRun standard (fun log t s => log.Timely standard t s) .init .init) (by decide)
    (by constructor <;> decide +kernel) (by decide +kernel)
  have h₂ := typeAndDecay_run (n := 0) (t := 202) h₁ (by decide +kernel) (by constructor <;> decide +kernel)
    (by decide +kernel)
  have h₃ := typeAndDecay_run (n := 3) (t := 303) h₂ (by decide +kernel) (by constructor <;> decide +kernel)
    (by decide +kernel)
  have hsafe := wpm_safe (by decide) (by decide) h₃
  exact ⟨⟨by decide +kernel, hsafe.1⟩,
    hsafe.2 (atTime 404) (by decide +kernel) (by constructor <;> decide +kernel)⟩

/-- Seven keys in 101 ms: the latency is beyond the 100 ms of the smoothing, and so is the reported number beyond 240. -/
theorem wpm_overshoots : ¬ ∀ log s, WpmRun standard (fun _ _ _ => True) log s → standard.InLimits s := by
  intro hlimits
  have hrun := typeAndDecay_run (x := (.init, .init)) (n := 7) (t := 101)
    (.init : WpmRun standard (fun _ _ _ => True) .init .init) (by decide) trivial (by decide +kernel)
  have hover : (typeAndDecay (.init, .init) 7 101).2.currentWpm = 242 := by decide +kernel
  have hle := (hlimits _ _ hrun).1
  rw [hover] at hle
  exact absurd hle (by decide)

end WpmRun

end Keys
end VialQmk
