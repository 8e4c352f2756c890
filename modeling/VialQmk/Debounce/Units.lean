import VialQmk.Debounce.Counters

/-!
# Debounce.Units

The algorithms whose `debounce` runs two loops over the units, one that updates the counters and one that
transfers the matrix. The units share the timer and the flags that let the loops run at all.

* `debounceUnits`: a call, from what a round of each loop does.
* `Separates`: what the rounds have to be like for the flags to make no difference.
* `run_unit`: then each unit goes through its own samples as if it were alone.
-/

namespace VialQmk
namespace Debounce

open Lib

variable {κ ι V : Type}

structure UnitState (κ V : Type) where
  counter : κ
  cooked : V
  deriving DecidableEq, Repr

/-- What a round of a loop leaves behind, and the flags that it sets. -/
structure Round (κ V : Type) extends UnitState κ V where
  countersNeedUpdate : Bool := false
  matrixNeedUpdate : Bool := false
  cookedChanged : Bool := false
  deriving DecidableEq, Repr

def CounterState.unit (s : CounterState κ ι V) (u : ι) : UnitState κ V := ⟨s.counters u, s.cooked u⟩

section Code

variable [Fintype ι]

/-- A loop over the units, from what it does to a raw value and a unit. -/
def CounterState.loop (body : V → UnitState κ V → Round κ V) (raw : ι → V) (s : CounterState κ ι V) :
    CounterState κ ι V :=
  let round u := body (raw u) (s.unit u)
  { s with
    counters := fun u => (round u).counter
    cooked := fun u => (round u).cooked
    countersNeedUpdate := s.countersNeedUpdate || decide (∃ u, (round u).countersNeedUpdate = true)
    matrixNeedUpdate := s.matrixNeedUpdate || decide (∃ u, (round u).matrixNeedUpdate = true)
    cookedChanged := s.cookedChanged || decide (∃ u, (round u).cookedChanged = true) }

def updateLoop (body : Nat → V → UnitState κ V → Round κ V) (raw : ι → V) (elapsedTime : Nat)
    (s : CounterState κ ι V) : CounterState κ ι V :=
  { s with countersNeedUpdate := false, matrixNeedUpdate := false }.loop (body elapsedTime) raw

def transferLoop (body : V → UnitState κ V → Round κ V) (raw : ι → V) (s : CounterState κ ι V) :
    CounterState κ ι V :=
  { s with matrixNeedUpdate := false }.loop body raw

def debounceUnits (size : TimerSize) (update : Nat → V → UnitState κ V → Round κ V)
    (transfer : V → UnitState κ V → Round κ V) (time : Nat) (raw : ι → V) (changed : Bool) :
    CounterState κ ι V → Bool × CounterState κ ι V :=
  debounceCounters size (updateLoop update raw) (transferLoop transfer raw) time changed

end Code

def Stable (transfer : V → UnitState κ V → Round κ V) (raw : V) (a : UnitState κ V) : Prop :=
  (transfer raw a).toUnitState = a

/-- Each loop sets the flags that the other one and the next call go by. -/
structure Separates (running : UnitState κ V → Prop) (update : Nat → V → UnitState κ V → Round κ V)
    (transfer : V → UnitState κ V → Round κ V) : Prop where
  update_zero : ∀ raw a, (update 0 raw a).toUnitState = a
  update_idle : ∀ e raw a, ¬ running a → (update e raw a).toUnitState = a
  update_running : ∀ e raw a, running (update e raw a).toUnitState → (update e raw a).countersNeedUpdate = true
  update_stable : ∀ e raw a, Stable transfer raw a → (update e raw a).matrixNeedUpdate = false →
    Stable transfer raw (update e raw a).toUnitState
  update_changed : ∀ e raw a, (update e raw a).cookedChanged = true ↔ (update e raw a).cooked ≠ a.cooked
  transfer_running : ∀ raw a, running (transfer raw a).toUnitState →
    running a ∨ (transfer raw a).countersNeedUpdate = true
  transfer_matrix : ∀ raw a, (transfer raw a).matrixNeedUpdate = false
  transfer_stable : ∀ raw a, Stable transfer raw (transfer raw a).toUnitState
  transfer_changed : ∀ raw a, (transfer raw a).cookedChanged = true ↔ (transfer raw a).cooked ≠ a.cooked
  changes_once : ∀ e raw a, (update e raw a).cooked ≠ a.cooked →
    (transfer raw (update e raw a).toUnitState).cooked = (update e raw a).cooked

def unitStep (update : Nat → V → UnitState κ V → Round κ V) (transfer : V → UnitState κ V → Round κ V)
    (elapsed : Nat) (raw : V) (a : UnitState κ V) : UnitState κ V :=
  (transfer raw (update elapsed raw a).toUnitState).toUnitState

def unitRun (size : TimerSize) (step : Nat → V → UnitState κ V → UnitState κ V) (start : UnitState κ V) :
    List (Sample V) → UnitState κ V
  | [] => start
  | x :: h => step (saturate (tick size.range x h)) x.value (unitRun size step start h)

section Separate

variable [Fintype ι] {size : TimerSize} {running : UnitState κ V → Prop}
  {update : Nat → V → UnitState κ V → Round κ V} {transfer : V → UnitState κ V → Round κ V}
  {off : V} {time : Nat} {raw : ι → V} {s : CounterState κ ι V}

theorem loop_changed {body : V → UnitState κ V → Round κ V}
    (hbody : ∀ raw a, (body raw a).cookedChanged = true ↔ (body raw a).cooked ≠ a.cooked) :
    (s.loop body raw).cookedChanged = true ↔ s.cookedChanged = true ∨ (s.loop body raw).cooked ≠ s.cooked := by
  rw [CounterState.loop, Bool.or_eq_true, decide_eq_true_iff, Function.ne_iff]
  exact or_congr Iff.rfl (exists_congr fun u => hbody _ _)

structure Between (size : TimerSize) (running : UnitState κ V → Prop) (transfer : V → UnitState κ V → Round κ V)
    (off : V) (h : List (Scan ι V)) (s : CounterState κ ι V) : Prop where
  flagged : ∀ u, running (s.unit u) → s.countersNeedUpdate = true
  noMatrix : s.matrixNeedUpdate = false
  clock : Clocked size h s
  stable : ∀ u, Stable transfer (lastRaw off h u) (s.unit u)

section Update

variable (size update raw time s)

def updated : CounterState κ ι V := updateCounters size (updateLoop update raw) time s

theorem updated_cases :
    (s.countersNeedUpdate = true ∧
      updated size update time raw s = updateLoop update raw (elapsedTime size time s) (s.read size time)) ∨
    (elapsedTime size time s = 0 ∧ updated size update time raw s = s.read size time) :=
  (updateCounters_cases size _ time s).imp And.right id

variable {size update raw time s} (hsep : Separates running update transfer)

include hsep

theorem updated_unit_elapsed (u : ι) :
    (updated size update time raw s).unit u = (update (elapsedTime size time s) (raw u) (s.unit u)).toUnitState := by
  rcases updated_cases size update time raw s with ⟨-, heq⟩ | ⟨hzero, heq⟩ <;> rw [heq]
  · rfl
  · rw [hzero, hsep.update_zero]
    rfl

theorem updated_flagged (hflagged : ∀ u, running (s.unit u) → s.countersNeedUpdate = true) (u : ι)
    (hruns : running ((updated size update time raw s).unit u)) :
    (updated size update time raw s).countersNeedUpdate = true := by
  rcases updated_cases size update time raw s with ⟨-, heq⟩ | ⟨-, heq⟩ <;> rw [heq] at hruns ⊢
  · rw [updateLoop, CounterState.loop, Bool.or_eq_true, decide_eq_true_iff]
    exact .inr ⟨u, hsep.update_running _ _ _ hruns⟩
  · exact hflagged u hruns

theorem updated_stable (hstable : ∀ u, Stable transfer (raw u) (s.unit u))
    (hmatrix : (updated size update time raw s).matrixNeedUpdate = false) (u : ι) :
    Stable transfer (raw u) ((updated size update time raw s).unit u) := by
  rcases updated_cases size update time raw s with ⟨-, heq⟩ | ⟨-, heq⟩ <;> rw [heq] at hmatrix ⊢
  · rw [updateLoop, CounterState.loop, Bool.or_eq_false_iff, decide_eq_false_iff_not] at hmatrix
    exact hsep.update_stable _ _ _ (hstable u) (Bool.eq_false_iff.mpr fun htrue => hmatrix.2 ⟨u, htrue⟩)
  · exact hstable u

theorem updated_changed : (updated size update time raw s).cookedChanged = true ↔
    (updated size update time raw s).cooked ≠ s.cooked := by
  rcases updated_cases size update time raw s with ⟨-, heq⟩ | ⟨-, heq⟩ <;> rw [heq]
  · rw [updateLoop, loop_changed (hsep.update_changed _)]
    exact or_iff_right Bool.false_ne_true
  · exact ⟨fun hfalse => absurd hfalse Bool.false_ne_true, fun hne => absurd rfl hne⟩

omit hsep

theorem updated_clock : (updated size update time raw s).lastTime = (s.read size time).lastTime ∧
    ((updated size update time raw s).countersNeedUpdate = true → s.countersNeedUpdate = true) := by
  rcases updated_cases size update time raw s with ⟨hon, heq⟩ | ⟨-, heq⟩ <;> rw [heq]
  · exact ⟨rfl, fun _ => hon⟩
  · exact ⟨rfl, id⟩

end Update

variable {h : List (Scan ι V)}

theorem updated_unit (hsep : Separates running update transfer) {x : Scan ι V} (hordered : Ordered (x :: h))
    (hs : Between size running transfer off h s) (u : ι) : (updated size update x.time x.value s).unit u =
      (update (saturate (tick size.range x h)) (x.value u) (s.unit u)).toUnitState := by
  rw [updated_unit_elapsed hsep]
  by_cases hflag : s.countersNeedUpdate = true
  · obtain ⟨y, hy, -⟩ := hs.clock hflag
    obtain ⟨h', rfl⟩ := List.head?_eq_some_iff.mp hy
    rw [elapsedTime_eq size hordered hs.clock hflag, tick]
  · have hidle : ¬ running (s.unit u) := fun hruns => hflag (hs.flagged u hruns)
    rw [hsep.update_idle _ _ _ hidle, hsep.update_idle _ _ _ hidle]

omit [Fintype ι] in
theorem stamp_eq {n : Nat} (hlast : s.lastTime = n) : { s with lastTime := n } = s := by
  rw [← hlast]

theorem debounceUnits_eq (changed : Bool) :
    debounceUnits size update transfer time raw changed s =
      let s₁ := updated size update time raw s
      let s₂ := if changed = true ∨ s₁.matrixNeedUpdate = true then
          transferLoop transfer raw { s₁ with lastTime := timerRead size time }
        else s₁
      (s₂.cookedChanged, s₂) := by
  rw [debounceUnits, debounceCounters_of size
    (show updateCounters size _ time s = updated size update time raw s from rfl)]
  by_cases hflag : s.countersNeedUpdate = true
  · have hlast : (updated size update time raw s).lastTime = timerRead size time := by
      rw [updated_clock.1, CounterState.read, if_pos hflag]
    simp only [if_pos hflag, stamp_eq hlast]
  · simp only [if_neg hflag]

section Call

variable (hsep : Separates running update transfer) {changed : Bool}

include hsep

theorem call_unit (hchanged : changed = false → ∀ u, Stable transfer (raw u) (s.unit u)) (u : ι) :
    (debounceUnits size update transfer time raw changed s).2.unit u =
      (transfer (raw u) ((updated size update time raw s).unit u)).toUnitState := by
  rw [debounceUnits_eq]
  by_cases hruns : changed = true ∨ (updated size update time raw s).matrixNeedUpdate = true
  · simp only [hruns, if_true]
    rfl
  · simp only [hruns, if_false]
    rw [not_or, Bool.not_eq_true, Bool.not_eq_true] at hruns
    exact (updated_stable hsep (hchanged hruns.1) hruns.2 u).symm

theorem call_flagged (hflagged : ∀ u, running (s.unit u) → s.countersNeedUpdate = true) (u : ι)
    (hruns : running ((debounceUnits size update transfer time raw changed s).2.unit u)) :
    (debounceUnits size update transfer time raw changed s).2.countersNeedUpdate = true := by
  have hupdate : running ((updated size update time raw s).unit u) →
      (updated size update time raw s).countersNeedUpdate = true := updated_flagged hsep hflagged u
  rw [debounceUnits_eq] at hruns ⊢
  by_cases htransfer : changed = true ∨ (updated size update time raw s).matrixNeedUpdate = true
  · simp only [htransfer, if_true] at hruns ⊢
    rw [transferLoop, CounterState.loop, Bool.or_eq_true, decide_eq_true_iff]
    exact (hsep.transfer_running _ _ hruns).imp hupdate fun hset => ⟨u, hset⟩
  · simp only [htransfer, if_false] at hruns ⊢
    exact hupdate hruns

theorem call_matrix : (debounceUnits size update transfer time raw changed s).2.matrixNeedUpdate = false := by
  rw [debounceUnits_eq]
  by_cases htransfer : changed = true ∨ (updated size update time raw s).matrixNeedUpdate = true
  · simp only [htransfer, if_true]
    rw [transferLoop, CounterState.loop, Bool.or_eq_false_iff, decide_eq_false_iff_not]
    exact ⟨rfl, fun ⟨u, hset⟩ => Bool.false_ne_true ((hsep.transfer_matrix _ _).symm.trans hset)⟩
  · simp only [htransfer, if_false]
    rw [not_or, Bool.not_eq_true, Bool.not_eq_true] at htransfer
    exact htransfer.2

omit hsep in
theorem call_clock (hon : (debounceUnits size update transfer time raw changed s).2.countersNeedUpdate = true) :
    (debounceUnits size update transfer time raw changed s).2.lastTime = timerRead size time := by
  rw [debounceUnits_eq] at hon ⊢
  by_cases htransfer : changed = true ∨ (updated size update time raw s).matrixNeedUpdate = true
  · simp only [htransfer, if_true]
    rfl
  · simp only [htransfer, if_false] at hon ⊢
    rw [updated_clock.1, CounterState.read, if_pos (updated_clock.2 hon)]

omit [Fintype ι] hsep in
theorem changed_once {a b c : ι → V} (h : ∀ u, b u ≠ a u → c u = b u) : (b ≠ a ∨ c ≠ b) ↔ c ≠ a := by
  rw [Function.ne_iff, Function.ne_iff, Function.ne_iff]
  constructor
  · rintro (⟨u, hne⟩ | ⟨u, hne⟩)
    · exact ⟨u, h u hne ▸ hne⟩
    · have hsame : b u = a u := by_contra fun hba => hne (h u hba)
      exact ⟨u, hsame ▸ hne⟩
  · rintro ⟨u, hne⟩
    by_cases hba : b u = a u
    · exact .inr ⟨u, hba ▸ hne⟩
    · exact .inl ⟨u, hba⟩

theorem call_returned :
    (debounceUnits size update transfer time raw changed s).1 = true ↔
      (debounceUnits size update transfer time raw changed s).2.cooked ≠ s.cooked := by
  have hupdate : (updated size update time raw s).cookedChanged = true ↔ _ := updated_changed hsep
  rw [debounceUnits_eq]
  by_cases htransfer : changed = true ∨ (updated size update time raw s).matrixNeedUpdate = true
  · simp only [htransfer, if_true]
    rw [transferLoop, loop_changed hsep.transfer_changed]
    refine Iff.trans (or_congr_left hupdate) (changed_once fun u hne => ?_)
    have hunit : (updated size update time raw s).unit u = _ := updated_unit_elapsed hsep u
    have honce := hsep.changes_once (elapsedTime size time s) (raw u) (s.unit u)
    rw [← hunit] at honce
    exact honce hne
  · simp only [htransfer, if_false]
    exact hupdate

end Call

variable {c₀ : κ}

theorem call_between (hsep : Separates running update transfer) {x : Scan ι V} (hordered : Ordered (x :: h))
    [DecidableEq V] (hs : Between size running transfer off h s) :
    let s' := (debounceUnits size update transfer x.time x.value (decide (x.value ≠ lastRaw off h)) s).2
    Between size running transfer off (x :: h) s' ∧
      ∀ u, s'.unit u = unitStep update transfer (saturate (tick size.range x h)) (x.value u) (s.unit u) := by
  intro s'
  have hunit : ∀ u, s'.unit u = (transfer (x.value u) ((updated size update x.time x.value s).unit u)).toUnitState :=
    call_unit hsep fun hsame u => by
      rw [not_not.mp (of_decide_eq_false hsame)]
      exact hs.stable u
  refine ⟨⟨fun u => call_flagged hsep hs.flagged u, call_matrix hsep, fun hon => ⟨x, rfl, call_clock hon⟩, fun u => ?_⟩,
    fun u => ?_⟩
  · rw [hunit u]
    exact hsep.transfer_stable _ _
  · rw [hunit u, updated_unit hsep hordered hs u, unitStep]

theorem run_unit (hsep : Separates running update transfer) [DecidableEq V] (hidle : ¬ running ⟨c₀, off⟩)
    (hstable : Stable transfer off ⟨c₀, off⟩) (hordered : Ordered h) :
    let s := run (debounceUnits size update transfer) off (.initial c₀ off) h
    Between size running transfer off h s ∧
      ∀ u, s.unit u = unitRun size (unitStep update transfer) ⟨c₀, off⟩ (samples (fun m => m u) h) := by
  induction h with
  | nil => exact ⟨⟨fun _ hruns => absurd hruns hidle, rfl, fun hfalse => absurd hfalse Bool.false_ne_true,
      fun _ => hstable⟩, fun _ => rfl⟩
  | cons x h ih =>
    obtain ⟨hbetween, hunits⟩ := ih hordered.tail
    obtain ⟨hbetween', hstep⟩ := call_between hsep hordered hbetween
    refine ⟨hbetween', fun u => (hstep u).trans ?_⟩
    rw [hunits u, samples_cons, unitRun, tick_samples (fun m : ι → V => m u)]

theorem run_step (hsep : Separates running update transfer) [DecidableEq V] (hidle : ¬ running ⟨c₀, off⟩)
    (hstable : Stable transfer off ⟨c₀, off⟩) {x : Scan ι V} (hordered : Ordered (x :: h)) (u : ι) :
    (run (debounceUnits size update transfer) off (.initial c₀ off) (x :: h)).unit u =
      unitStep update transfer (saturate (tick size.range x h)) (x.value u)
        ((run (debounceUnits size update transfer) off (.initial c₀ off) h).unit u) :=
  (call_between hsep hordered (run_unit hsep hidle hstable hordered.tail).1).2 u

theorem run_independent (hsep : Separates running update transfer) [DecidableEq V] (hidle : ¬ running ⟨c₀, off⟩)
    (hstable : Stable transfer off ⟨c₀, off⟩) {h' : List (Scan ι V)} (hordered : Ordered h) (hordered' : Ordered h')
    {u : ι} (hsame : samples (fun m => m u) h = samples (fun m => m u) h') :
    (run (debounceUnits size update transfer) off (.initial c₀ off) h).unit u =
      (run (debounceUnits size update transfer) off (.initial c₀ off) h').unit u := by
  rw [(run_unit hsep hidle hstable hordered).2 u, (run_unit hsep hidle hstable hordered').2 u, hsame]

end Separate

end Debounce
end VialQmk
