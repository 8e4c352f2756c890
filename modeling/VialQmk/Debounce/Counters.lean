import VialQmk.Lib.Samples
import Mathlib.Data.Fintype.Pi
import Mathlib.Data.Fintype.Prod

/-!
# Debounce.Counters

What the debounce algorithms have in common: the timer, the scans, and the frame of `debounce` in the
algorithms that count down for each unit.

A matrix is a value for each of its units. A unit is a key, with a bit, or a row, with its bits. The loops
over the matrix do one unit after the other, and no round reads what another one writes, so a loop is
given by what it does to each unit and, for a flag, by whether some unit sets it.
-/

namespace VialQmk
namespace Debounce

open Lib

inductive TimerSize where
  | bits16 | bits32
  deriving DecidableEq, Repr

def TimerSize.range : TimerSize → Nat
  | .bits16 => 0x10000
  | .bits32 => 0x100000000

variable (size : TimerSize)

def timerRead (time : Nat) : Nat := time % size.range

def timerDiff (a b : Nat) : Nat := (a + size.range - b) % size.range

def uint8Max : Nat := 255

def saturate (elapsed : Nat) : Nat := if elapsed > uint8Max then uint8Max else elapsed

def maximumDebounce (debounce : Nat) : Nat := if debounce > uint8Max then uint8Max else debounce

theorem range_gt : uint8Max < size.range := by
  cases size <;> decide

theorem timerDiff_read {t t' : Nat} (h : t ≤ t') :
    timerDiff size (timerRead size t') (timerRead size t) = (t' - t) % size.range := by
  rw [timerDiff, timerRead, timerRead]
  have hpos : 0 < size.range := Nat.zero_lt_of_lt (range_gt size)
  generalize size.range = m at hpos ⊢
  obtain ⟨d, rfl⟩ := Nat.exists_eq_add_of_le h
  have hlt : t % m < m := Nat.mod_lt t hpos
  have hd : d % m < m := Nat.mod_lt d hpos
  rw [Nat.add_sub_cancel_left, Nat.add_mod t d m]
  generalize t % m = r at hlt ⊢
  generalize d % m = e at hd ⊢
  rcases Nat.lt_or_ge (r + e) m with hsmall | hlarge
  · rw [Nat.mod_eq_of_lt hsmall, show r + e + m - r = e + m by omega, Nat.add_mod_right, Nat.mod_eq_of_lt hd]
  · have hwrap : (r + e) % m = r + e - m := by
      rw [Nat.mod_eq_sub_mod hlarge, Nat.mod_eq_of_lt (by omega)]
    rw [hwrap, show r + e - m + m - r = e by omega, Nat.mod_eq_of_lt hd]

theorem maximumDebounce_le (d : Nat) : maximumDebounce d ≤ uint8Max := by
  rw [maximumDebounce]
  split <;> omega

theorem saturate_le (elapsed : Nat) : saturate elapsed ≤ elapsed := by
  rw [saturate]
  split <;> omega

theorem le_saturate {n elapsed : Nat} (h : n ≤ elapsed) (hn : n ≤ uint8Max) : n ≤ saturate elapsed := by
  rw [saturate]
  split <;> omega

section Scans

variable {ι V σ : Type} [Fintype ι] [DecidableEq V]

abbrev Scan (ι V : Type) := Sample (ι → V)

abbrev Keys (rows cols : Nat) := Fin rows × Fin cols

/-- The raw matrix of the scan before; at the start nothing is pressed. -/
def lastRaw (off : V) : List (Scan ι V) → ι → V
  | [] => fun _ => off
  | x :: _ => x.value

/-- The state behind a history of scans, the newest one first. `changed` says that the raw matrix differs
from the one before. -/
def run (debounce : Nat → (ι → V) → Bool → σ → Bool × σ) (off : V) (start : σ) : List (Scan ι V) → σ
  | [] => start
  | x :: h => (debounce x.time x.value (decide (x.value ≠ lastRaw off h)) (run debounce off start h)).2

def returned (debounce : Nat → (ι → V) → Bool → σ → Bool × σ) (off : V) (start : σ) : List (Scan ι V) → Bool
  | [] => false
  | x :: h => (debounce x.time x.value (decide (x.value ≠ lastRaw off h)) (run debounce off start h)).1

/-- `none.c`. -/
def debounceNone (raw : ι → V) (changed : Bool) (cooked : ι → V) : Bool × (ι → V) :=
  if changed = true ∧ cooked ≠ raw then (true, raw) else (false, cooked)

end Scans

section Counters

variable {κ ι V : Type}

structure CounterState (κ ι V : Type) where
  counters : ι → κ
  lastTime : Nat
  countersNeedUpdate : Bool
  matrixNeedUpdate : Bool
  cookedChanged : Bool
  cooked : ι → V

def CounterState.initial (elapsed : κ) (off : V) : CounterState κ ι V :=
  ⟨fun _ => elapsed, 0, false, false, false, fun _ => off⟩

/-- The first part of `debounce`: the counters are updated if some of them run. -/
def updateCounters (size : TimerSize) (update : Nat → CounterState κ ι V → CounterState κ ι V) (time : Nat)
    (s : CounterState κ ι V) : CounterState κ ι V :=
  let s : CounterState κ ι V := { s with cookedChanged := false }
  if s.countersNeedUpdate = true then
    let now := timerRead size time
    let elapsedTime := saturate (timerDiff size now s.lastTime)
    let s := { s with lastTime := now }
    if elapsedTime > 0 then update elapsedTime s else s
  else s

/-- `debounce`, with what it calls. In `sym_defer_pk.c` there is no `matrix_need_update`; none of its
functions sets it here. -/
def debounceCounters (size : TimerSize) (update : Nat → CounterState κ ι V → CounterState κ ι V)
    (transfer : CounterState κ ι V → CounterState κ ι V) (time : Nat) (changed : Bool) (s : CounterState κ ι V) :
    Bool × CounterState κ ι V :=
  let updatedLast := s.countersNeedUpdate
  let s := updateCounters size update time s
  let s :=
    if changed = true ∨ s.matrixNeedUpdate = true then
      transfer (if updatedLast = true then s else { s with lastTime := timerRead size time })
    else s
  (s.cookedChanged, s)

/-- The time that the counters are told, if they are updated. -/
def elapsedTime (time : Nat) (s : CounterState κ ι V) : Nat :=
  if s.countersNeedUpdate = true then saturate (timerDiff size (timerRead size time) s.lastTime) else 0

def CounterState.read (time : Nat) (s : CounterState κ ι V) : CounterState κ ι V :=
  { s with
    cookedChanged := false
    lastTime := if s.countersNeedUpdate = true then timerRead size time else s.lastTime }

theorem updateCounters_cases (update : Nat → CounterState κ ι V → CounterState κ ι V) (time : Nat)
    (s : CounterState κ ι V) :
    (0 < elapsedTime size time s ∧ s.countersNeedUpdate = true ∧
      updateCounters size update time s = update (elapsedTime size time s) (s.read size time)) ∨
    (elapsedTime size time s = 0 ∧ updateCounters size update time s = s.read size time) := by
  rw [updateCounters, elapsedTime, CounterState.read]
  by_cases hflag : s.countersNeedUpdate = true
  · simp only [hflag, if_true, gt_iff_lt]
    split
    · rename_i hpos
      exact .inl ⟨hpos, trivial, rfl⟩
    · rename_i hzero
      exact .inr ⟨Nat.eq_zero_of_not_pos hzero, rfl⟩
  · simp only [hflag, Bool.false_eq_true, if_false]
    exact .inr ⟨trivial, trivial⟩

theorem debounceCounters_of {update : Nat → CounterState κ ι V → CounterState κ ι V} {time : Nat}
    {s s₁ : CounterState κ ι V} (h₁ : updateCounters size update time s = s₁)
    (transfer : CounterState κ ι V → CounterState κ ι V) (changed : Bool) :
    debounceCounters size update transfer time changed s =
      let s₂ := if changed = true ∨ s₁.matrixNeedUpdate = true then
          transfer (if s.countersNeedUpdate = true then s₁ else { s₁ with lastTime := timerRead size time })
        else s₁
      (s₂.cookedChanged, s₂) := by
  subst h₁
  rfl

def Clocked (h : List (Scan ι V)) (s : CounterState κ ι V) : Prop :=
  s.countersNeedUpdate = true → ∃ y ∈ h.head?, s.lastTime = timerRead size y.time

/-- The counters are told the time since the scan before, up to the range of the timer and to `UINT8_MAX`. -/
theorem elapsedTime_eq {x y : Scan ι V} {h : List (Scan ι V)} {s : CounterState κ ι V}
    (hordered : Ordered (x :: y :: h)) (hclock : Clocked size (y :: h) s) (hflag : s.countersNeedUpdate = true) :
    elapsedTime size x.time s = saturate ((x.time - y.time) % size.range) := by
  obtain ⟨z, hz, hlast⟩ := hclock hflag
  cases hz
  have hle : y.time ≤ x.time := (List.pairwise_cons.mp hordered).1 y List.mem_cons_self
  rw [elapsedTime, if_pos hflag, hlast, timerDiff_read size hle]

end Counters

end Debounce
end VialQmk
