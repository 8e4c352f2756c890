import Mathlib.Algebra.Ring.Int.Defs
import VialQmk.Lib.Mem

/-!
# Keys.Wpm

Words per minute (`wpm.c`): key presses in a ring of sample periods, and what the time they took makes of them. A
computation that C leaves undefined has a fault, and so has a product of unsigned numbers that does not fit.

* `measure_ok`, `smooth_ok`: where nothing is out of bounds or too large.
* `decayWpm_ok`: one decay there.
-/

namespace VialQmk
namespace Keys

open Lib

/-- `WPM_SAMPLE_PERIODS`, which is the size of an array, `WPM_SAMPLE_SECONDS`, which is in milliseconds an `int`,
`WPM_ESTIMATED_WORD_SIZE`, the options, and the functions that a keymap can replace. -/
structure WpmConfig where
  maxPeriods : Nat
  maxPeriods_pos : 0 < maxPeriods
  sampleSeconds : Nat
  sampleSeconds_lt : 1000 * sampleSeconds < 2147483648
  estimatedWordSize : Nat
  estimatedWordSize_pos : 0 < estimatedWordSize
  unfiltered : Bool
  allowCountRegression : Bool
  launchControl : Bool
  wpmKeycode : UInt16 → Bool
  wpmRegressCount : UInt16 → UInt8

/-- The variables of 8 bits are natural numbers here, and `period_presses` is by the index. -/
structure Wpm where
  currentWpm : Nat
  wpmTimer : BitVec 32
  periodPresses : Mem Int
  currentPeriod : Nat
  periods : Nat
  smoothingTimer : BitVec 32
  prevWpm : Nat
  nextWpm : Nat

def Wpm.init : Wpm := ⟨0, 0, fun _ => 0, 0, 1, 0, 0, 0⟩

/-- What the timer says where `decay_wpm` reads it: for the elapsed time and the next `wpm_timer`, for the latency and
the next `smoothing_timer`. -/
structure WpmReads where
  elapsed : BitVec 32
  wpmTimer : BitVec 32
  latency : BitVec 32
  smoothingTimer : BitVec 32

inductive WpmFault where
  | outOfBounds
  | overflow
  | divisionByZero
deriving DecidableEq, Repr

def int32 (x : Int) : Except WpmFault Int :=
  if -2147483648 ≤ x ∧ x < 2147483648 then .ok x else .error .overflow

def uint32 (x : Int) : Except WpmFault Int := if x < 4294967296 then .ok x else .error .overflow

namespace WpmConfig

variable (c : WpmConfig) (s : Wpm)

def periodDuration : Nat := 1000 * c.sampleSeconds / c.maxPeriods

def updateWpm (keycode : UInt16) : Wpm :=
  let s := if c.wpmKeycode keycode && decide (s.periodPresses s.currentPeriod < 32767) then
      { s with periodPresses :=
          Function.update s.periodPresses s.currentPeriod (s.periodPresses s.currentPeriod + 1) }
    else s
  if c.allowCountRegression && c.wpmRegressCount keycode != 0 &&
      decide (-32768 < s.periodPresses s.currentPeriod) then
    { s with periodPresses :=
        Function.update s.periodPresses s.currentPeriod (s.periodPresses s.currentPeriod - 1) }
  else s

def readPresses (i : Nat) : Except WpmFault Int :=
  if i < c.maxPeriods then .ok (s.periodPresses i) else .error .outOfBounds

def sumPresses : Nat → Except WpmFault Int
  | 0 => c.readPresses s 0
  | n + 1 => do
    let presses ← sumPresses n
    let more ← c.readPresses s (n + 1)
    return presses + more

/-- The presses, the elapsed time, and the number that these give. -/
def measure (r : WpmReads) : Except WpmFault (Int × Int × Int) := do
  let sum ← c.sumPresses s s.periods
  let presses := if sum < 0 then 0 else sum
  let elapsed := (r.elapsed - s.wpmTimer).toInt
  let whole ← int32 (s.periods * c.periodDuration)
  let duration ← int32 (whole + elapsed)
  let keys ← int32 (60000 * presses)
  let words ← uint32 (duration % 4294967296 * c.estimatedWordSize)
  if words = 0 then .error .divisionByZero
  else
    let wpmNow := keys / words
    return (presses, elapsed, if 240 < wpmNow then 240 else wpmNow)

def advance (elapsed : Int) (r : WpmReads) : Wpm :=
  if c.periodDuration < elapsed then
    let currentPeriod := (s.currentPeriod + 1) % c.maxPeriods % 256
    { s with
      currentPeriod := currentPeriod
      periodPresses := Function.update s.periodPresses currentPeriod 0
      periods := (if s.periods < c.maxPeriods - 1 then s.periods + 1 else c.maxPeriods - 1) % 256
      wpmTimer := r.wpmTimer }
  else s

/-- The option starts afresh where nothing has been pressed. -/
def launch (presses : Int) : Wpm :=
  if c.launchControl && decide (presses = 0) then
    { s with currentPeriod := 0, periods := 0, periodPresses := Function.update s.periodPresses 0 0 }
  else s

def smooth (wpmNow : Int) (r : WpmReads) : Except WpmFault Wpm := do
  let latency := (r.latency - s.smoothingTimer).toInt
  let s := if 100 < latency then
      { s with smoothingTimer := r.smoothingTimer, prevWpm := s.currentWpm, nextWpm := (wpmNow % 256).toNat }
    else s
  let product ← int32 (latency * ((s.nextWpm : Int) - s.prevWpm))
  return { s with currentWpm := ((s.prevWpm + product.tdiv 100) % 256).toNat }

def decayWpm (r : WpmReads) : Except WpmFault Wpm := do
  let (presses, elapsed, wpmNow) ← c.measure s r
  let s := c.advance s elapsed r
  let wpmNow := if presses < 2 then 0 else wpmNow
  let s := c.launch s presses
  if c.unfiltered then return { s with currentWpm := (wpmNow % 256).toNat }
  else smooth s wpmNow r

/-- The reported number is 240 at most, and it is between the two numbers that it is smoothed from. -/
def InLimits : Prop :=
  s.currentWpm ≤ 240 ∧
    (c.unfiltered = false →
      min s.prevWpm s.nextWpm ≤ s.currentWpm ∧ s.currentWpm ≤ max s.prevWpm s.nextWpm)

def ringPresses : Int := max 0 (s.periodPresses.readBlock 0 (s.periods + 1)).sum

def covered (r : WpmReads) : Int := s.periods * c.periodDuration + (r.elapsed - s.wpmTimer).toInt

/-- The words per minute of the ring, before they are smoothed. -/
def measured (r : WpmReads) : Int :=
  if ringPresses s < 2 then 0
  else min 240 (60000 * ringPresses s / (c.covered s r % 4294967296 * c.estimatedWordSize))

/-- The periods are in the array, and the presses and the time in the limits of the products. -/
structure Measurable (r : WpmReads) : Prop where
  periods : s.periods < c.maxPeriods
  presses : ringPresses s ≤ 35791
  covered_ne : c.covered s r ≠ 0
  covered_lt : c.covered s r < 2147483648
  words_lt : c.covered s r % 4294967296 * c.estimatedWordSize < 4294967296

/-- What the smoothing goes on from: the numbers that it has, or the reported and the measured ones after 100 ms. -/
def gap (r : WpmReads) : Int :=
  if 100 < (r.latency - s.smoothingTimer).toInt then c.measured s r - s.currentWpm else (s.nextWpm : Int) - s.prevWpm

/-- The latency does not take the reported number beyond the next one. -/
def Smooth (r : WpmReads) : Prop :=
  c.unfiltered = false →
    -100 < (r.latency - s.smoothingTimer).toInt * (c.gap s r).natAbs ∧
      (r.latency - s.smoothingTimer).toInt * (c.gap s r).natAbs < 100 * ((c.gap s r).natAbs + 1)

end WpmConfig

namespace WpmConfig

variable {c : WpmConfig} {s : Wpm} {r : WpmReads}

theorem sumPresses_ok {n : Nat} (h : n < c.maxPeriods) :
    c.sumPresses s n = .ok (s.periodPresses.readBlock 0 (n + 1)).sum := by
  induction n with
  | zero =>
    rw [sumPresses, readPresses, if_pos h, Mem.readBlock_succ, List.sum_append, List.sum_singleton]
    exact congrArg Except.ok (Int.zero_add _).symm
  | succ n ih =>
    rw [sumPresses, ih (Nat.lt_of_succ_lt h), readPresses, if_pos h, Mem.readBlock_succ _ _ (n + 1), List.sum_append,
      List.sum_singleton, Nat.zero_add]
    rfl

theorem ok_bind {α β : Type} (a : α) (f : α → Except WpmFault β) : (Except.ok a >>= f) = f a := rfl

theorem int32_of {x : Int} (h : -2147483648 ≤ x ∧ x < 2147483648) : int32 x = .ok x := if_pos h

theorem uint32_of {x : Int} (h : x < 4294967296) : uint32 x = .ok x := if_pos h

theorem whole_lt (h : s.periods < c.maxPeriods) :
    0 ≤ (s.periods : Int) * c.periodDuration ∧ (s.periods : Int) * c.periodDuration < 2147483648 := by
  have hlt : s.periods * c.periodDuration < 2147483648 :=
    calc s.periods * c.periodDuration ≤ c.maxPeriods * c.periodDuration :=
          Nat.mul_le_mul_right _ (Nat.le_of_lt h)
      _ ≤ 1000 * c.sampleSeconds := Nat.mul_div_le _ _
      _ < 2147483648 := c.sampleSeconds_lt
  exact ⟨Int.mul_nonneg (Int.natCast_nonneg _) (Int.natCast_nonneg _), by rw [← Int.natCast_mul]; omega⟩

theorem Measurable.covered_ge (h : c.Measurable s r) : -2147483648 ≤ c.covered s r := by
  have hle := BitVec.le_toInt (r.elapsed - s.wpmTimer)
  have hwhole := (whole_lt h.periods).1
  rw [covered]
  omega

theorem Measurable.words_ne (h : c.Measurable s r) : c.covered s r % 4294967296 * c.estimatedWordSize ≠ 0 := by
  have hge := h.covered_ge
  have hlt := h.covered_lt
  have hne := h.covered_ne
  have hpos := c.estimatedWordSize_pos
  exact Int.mul_ne_zero (by omega) (by omega)

theorem Measurable.measure_ok (h : c.Measurable s r) :
    ∃ wpmNow, c.measure s r = .ok (ringPresses s, (r.elapsed - s.wpmTimer).toInt, wpmNow) ∧
      (if ringPresses s < 2 then 0 else wpmNow) = c.measured s r := by
  have hwhole := whole_lt h.periods
  have hsum : (if (s.periodPresses.readBlock 0 (s.periods + 1)).sum < 0 then 0
      else (s.periodPresses.readBlock 0 (s.periods + 1)).sum) = ringPresses s := by
    rw [ringPresses]
    omega
  have hpresses : 0 ≤ ringPresses s := Int.le_max_left _ _
  have hmax := h.presses
  have hclip : ∀ wpmNow : Int, (if 240 < wpmNow then 240 else wpmNow) = min 240 wpmNow := by
    intro wpmNow
    omega
  have hwhole' : int32 (s.periods * c.periodDuration) = .ok (s.periods * c.periodDuration) := int32_of (by omega)
  have hcovered : int32 (s.periods * c.periodDuration + (r.elapsed - s.wpmTimer).toInt) = .ok (c.covered s r) :=
    int32_of ⟨h.covered_ge, h.covered_lt⟩
  have hkeys : int32 (60000 * ringPresses s) = .ok (60000 * ringPresses s) := int32_of (by omega)
  refine ⟨min 240 (60000 * ringPresses s / (c.covered s r % 4294967296 * c.estimatedWordSize)), ?_, rfl⟩
  simp only [measure, sumPresses_ok h.periods, ok_bind, hsum, hwhole', hcovered, hkeys, uint32_of h.words_lt,
    if_neg h.words_ne, hclip]
  rfl

theorem tdiv_within {x : Int} {n : Nat} (hlow : -100 < x) (hhigh : x < 100 * ((n : Int) + 1)) :
    0 ≤ x.tdiv 100 ∧ x.tdiv 100 ≤ n := by
  rcases Int.le_total 0 x with hx | hx
  · rw [Int.tdiv_eq_ediv_of_nonneg hx]
    omega
  · have hneg : x.tdiv 100 = -(-x / 100) := by
      rw [← Int.tdiv_eq_ediv_of_nonneg (by omega), Int.neg_tdiv, Int.neg_neg]
    omega

theorem smoothed_between {prev next latency : Int} (hlow : -100 < latency * ((next - prev).natAbs : Int))
    (hhigh : latency * ((next - prev).natAbs : Int) < 100 * (((next - prev).natAbs : Int) + 1)) :
    min prev next ≤ prev + (latency * (next - prev)).tdiv 100 ∧
      prev + (latency * (next - prev)).tdiv 100 ≤ max prev next := by
  obtain ⟨hpos, hle⟩ := tdiv_within hlow hhigh
  rcases Int.natAbs_eq (next - prev) with hup | hdown
  · rw [← hup] at hpos hle
    omega
  · have hneg : (latency * (next - prev)).tdiv 100 = -(latency * ((next - prev).natAbs : Int)).tdiv 100 := by
      conv_lhs => rw [hdown]
      rw [Int.mul_neg, Int.neg_tdiv]
    omega

/-- The numbers are within 240, and the reported one between the other two. -/
structure Bounded (c : WpmConfig) (s : Wpm) : Prop where
  limits : c.InLimits s
  prev_le : s.prevWpm ≤ 240
  next_le : s.nextWpm ≤ 240

theorem measured_within (c : WpmConfig) (s : Wpm) (r : WpmReads) : 0 ≤ c.measured s r ∧ c.measured s r ≤ 240 := by
  rw [measured]
  split
  · omega
  · have hpos := c.estimatedWordSize_pos
    have hpresses : 0 ≤ ringPresses s := Int.le_max_left _ _
    have hwords : 0 ≤ c.covered s r % 4294967296 * c.estimatedWordSize := Int.mul_nonneg (by omega) (by omega)
    have hnonneg := Int.ediv_nonneg (a := 60000 * ringPresses s) (by omega) hwords
    omega

theorem smooth_to {prev next : Nat} {latency : Int} (hprev : prev ≤ 240) (hnext : next ≤ 240)
    (hlow : -100 < latency * (((next : Int) - prev).natAbs : Int))
    (hhigh : latency * (((next : Int) - prev).natAbs : Int) < 100 * ((((next : Int) - prev).natAbs : Int) + 1)) :
    int32 (latency * ((next : Int) - prev)) = .ok (latency * ((next : Int) - prev)) ∧
      min prev next ≤ (((prev : Int) + (latency * ((next : Int) - prev)).tdiv 100) % 256).toNat ∧
      (((prev : Int) + (latency * ((next : Int) - prev)).tdiv 100) % 256).toNat ≤ max prev next := by
  obtain ⟨hmin, hmax⟩ := smoothed_between hlow hhigh
  refine ⟨int32_of ?_, by omega, by omega⟩
  rcases Int.natAbs_eq ((next : Int) - prev) with hup | hdown
  · rw [← hup] at hlow hhigh
    omega
  · have hneg : latency * ((next : Int) - prev) = -(latency * (((next : Int) - prev).natAbs : Int)) := by
      conv_lhs => rw [hdown]
      rw [Int.mul_neg]
    omega

def SameSmoothing (s s' : Wpm) : Prop :=
  s'.currentWpm = s.currentWpm ∧ s'.smoothingTimer = s.smoothingTimer ∧ s'.prevWpm = s.prevWpm ∧ s'.nextWpm = s.nextWpm

theorem launch_advance (c : WpmConfig) (s : Wpm) (elapsed presses : Int) (r : WpmReads) :
    SameSmoothing s (c.launch (c.advance s elapsed r) presses) := by
  unfold launch advance
  split <;> split <;> exact ⟨rfl, rfl, rfl, rfl⟩

theorem smooth_ok {t : Wpm} (h : Bounded c s) (hsame : SameSmoothing s t) (hfilter : c.unfiltered = false)
    (hsmooth : c.Smooth s r) : ∃ s', smooth t (c.measured s r) r = .ok s' ∧ Bounded c s' := by
  obtain ⟨hcurrent, htimer, hprev, hnext⟩ := hsame
  obtain ⟨hlow, hhigh⟩ := hsmooth hfilter
  obtain ⟨hpos, hle⟩ := measured_within c s r
  have hmeasured : (c.measured s r % 256).toNat ≤ 240 ∧ ((c.measured s r % 256).toNat : Int) = c.measured s r := by omega
  by_cases hlate : 100 < (r.latency - s.smoothingTimer).toInt
  · rw [gap, if_pos hlate, ← hmeasured.2] at hlow hhigh
    obtain ⟨hok, hmin, hmax⟩ := smooth_to h.limits.1 hmeasured.1 hlow hhigh
    have hcur := h.limits.1
    simp only [smooth, htimer, if_pos hlate, hcurrent, hok, ok_bind]
    refine ⟨_, rfl, ⟨⟨?_, fun _ => ⟨hmin, hmax⟩⟩, hcur, hmeasured.1⟩⟩
    exact Nat.le_trans hmax (Nat.max_le.mpr ⟨hcur, hmeasured.1⟩)
  · rw [gap, if_neg hlate, ← hprev, ← hnext] at hlow hhigh
    have hprev_le : t.prevWpm ≤ 240 := hprev ▸ h.prev_le
    have hnext_le : t.nextWpm ≤ 240 := hnext ▸ h.next_le
    obtain ⟨hok, hmin, hmax⟩ := smooth_to hprev_le hnext_le hlow hhigh
    simp only [smooth, htimer, if_neg hlate, hok, ok_bind]
    refine ⟨_, rfl, ⟨⟨?_, fun _ => ⟨hmin, hmax⟩⟩, hprev_le, hnext_le⟩⟩
    exact Nat.le_trans hmax (Nat.max_le.mpr ⟨hprev_le, hnext_le⟩)

theorem updateWpm_same (c : WpmConfig) (s : Wpm) (keycode : UInt16) : SameSmoothing s (c.updateWpm s keycode) := by
  unfold updateWpm
  split <;> simp only <;> split <;> exact ⟨rfl, rfl, rfl, rfl⟩

theorem Bounded.same {t : Wpm} (h : Bounded c s) (hsame : SameSmoothing s t) : Bounded c t := by
  obtain ⟨hcurrent, -, hprev, hnext⟩ := hsame
  exact ⟨⟨hcurrent ▸ h.limits.1, fun hfilter => hcurrent ▸ hprev ▸ hnext ▸ h.limits.2 hfilter⟩, hprev ▸ h.prev_le,
    hnext ▸ h.next_le⟩

theorem decayWpm_ok (h : Bounded c s) (hmeasurable : c.Measurable s r) (hsmooth : c.Smooth s r) :
    ∃ s', c.decayWpm s r = .ok s' ∧ Bounded c s' := by
  obtain ⟨wpmNow, hok, hmeasured⟩ := hmeasurable.measure_ok
  have hsame := launch_advance c s (r.elapsed - s.wpmTimer).toInt (ringPresses s) r
  simp only [decayWpm, hok, ok_bind, hmeasured]
  by_cases hfilter : c.unfiltered = true
  · rw [if_pos hfilter]
    obtain ⟨hpos, hle⟩ := measured_within c s r
    have hbounded := h.same hsame
    exact ⟨_, rfl, ⟨⟨by simp only; omega, fun hnot => absurd hfilter (by rw [hnot]; exact Bool.false_ne_true)⟩,
      hbounded.prev_le, hbounded.next_le⟩⟩
  · rw [if_neg hfilter]
    exact smooth_ok h hsame (Bool.eq_false_iff.mpr hfilter) hsmooth

end WpmConfig

end Keys
end VialQmk
