import VialQmk.Debounce.Units

/-!
# Debounce.AsymEagerDefer

`asym_eager_defer_pk.c`: a press is taken on at once, a release is deferred. One counter serves the lockout
after a press and the delay of a release.

* `AsymDebounce` is what it is for in a run, and `Settles` in a run without an end.
* `asym_debounce`: this is what it does. A signal that has settled reaches the cooked matrix if the timer goes
  on; no key depends on another one.
-/

namespace VialQmk
namespace Debounce

open Lib

variable {ι α : Type}

structure DebounceCounter where
  pressed : Bool
  time : Nat
  deriving DecidableEq, Repr

namespace AsymEagerDefer

def updateDebounceCountersAndTransferIfExpired (elapsedTime : Nat) (raw : Bool) (a : UnitState DebounceCounter Bool) :
    Round DebounceCounter Bool :=
  if a.counter.time ≠ 0 then
    if a.counter.time ≤ elapsedTime then
      if a.counter.pressed = true then
        -- key-down: eager
        { a with counter := { a.counter with time := 0 }, matrixNeedUpdate := true }
      else
        -- key-up: defer
        { counter := { a.counter with time := 0 }
          cooked := raw
          cookedChanged := decide (raw ≠ a.cooked) }
    else
      { a with counter := { a.counter with time := a.counter.time - elapsedTime }, countersNeedUpdate := true }
  else { a with }

def transferMatrixValues (debounce : Nat) (raw : Bool) (a : UnitState DebounceCounter Bool) :
    Round DebounceCounter Bool :=
  if raw ≠ a.cooked then
    if a.counter.time = 0 then
      if raw = true then
        -- key-down: eager
        { counter := ⟨raw, debounce⟩
          cooked := !a.cooked
          countersNeedUpdate := true
          cookedChanged := true }
      else { a with counter := ⟨raw, debounce⟩, countersNeedUpdate := true }
    else { a with }
  else if a.counter.time ≠ 0 then
    if a.counter.pressed = false then
      -- key-up: defer
      { a with counter := { a.counter with time := 0 } }
    else { a with }
  else { a with }

def maximumDebounce (debounce : Nat) : Nat := if debounce > 127 then 127 else debounce

def debounce [Fintype ι] (size : TimerSize) (debounce time : Nat) (raw : ι → Bool) (changed : Bool)
    (s : CounterState DebounceCounter ι Bool) : Bool × CounterState DebounceCounter ι Bool :=
  if maximumDebounce debounce > 0 then
    debounceUnits size updateDebounceCountersAndTransferIfExpired (transferMatrixValues (maximumDebounce debounce)) time
      raw changed s
  else
    let (cookedChanged, cooked) := debounceNone raw changed s.cooked
    (cookedChanged, { s with cooked })

/-- `debounce_init` sets the time alone. While it is zero nothing looks at the direction. -/
def elapsed : DebounceCounter := ⟨false, 0⟩

end AsymEagerDefer

/-- At a sample with a press, or the part of the run behind it. -/
def Presses (out : List (Sample α) → Bool) (x : Sample α) (h : List (Sample α)) : Prop :=
  out h = false ∧ out (x :: h) = true

/-- A key that is not pressed takes on a press at the first scan. It is released after it has been released at
every scan for `ms`, counted from a scan that is `ms` after every press. -/
structure AsymDebounce (ms : Nat) (view : α → Bool) (out : List (Sample α) → Bool) (h : List (Sample α)) : Prop where
  press : ∀ x t, x :: t <:+ h → out t = false → view x.value = true → out (x :: t) = true
  release : ∀ x t, x :: t <:+ h → out t = true → out (x :: t) = false →
    ∃ y ∈ held view false (x :: t), y.time + ms ≤ x.time ∧
      ∀ p t', p :: t' <:+ t → Presses out p t' → p.time + ms ≤ y.time

/-- If the clock goes on without an end, what the signal settles on reaches the output for good. -/
def Settles (clock : List (Sample α) → Nat) (view : α → Bool) (out : List (Sample α) → Bool) (signal : Nat → Sample α) :
    Prop :=
  (∀ t, ∃ n, t ≤ clock (history signal n)) → ∀ v k, (∀ n, k ≤ n → view (signal n).value = v) →
    ∃ n, k ≤ n ∧ ∀ j, n ≤ j → out (history signal j) = v

namespace AsymEagerDefer

section Unit

variable {d : Nat}

theorem transfer_idle (raw : Bool) (a : UnitState DebounceCounter Bool) (hidle : a.counter.time = 0) :
    (transferMatrixValues d raw a).toUnitState = if raw ≠ a.cooked then ⟨⟨raw, d⟩, true⟩ else a := by
  obtain ⟨⟨pressed, time⟩, cooked⟩ := a
  obtain rfl : time = 0 := hidle
  cases raw <;> cases cooked <;> rfl

theorem transfer_running (raw : Bool) (a : UnitState DebounceCounter Bool) (hruns : a.counter.time ≠ 0) :
    (transferMatrixValues d raw a).toUnitState =
      if raw = a.cooked ∧ a.counter.pressed = false then { a with counter := { a.counter with time := 0 } } else a := by
  rw [transferMatrixValues]
  by_cases hdelta : raw = a.cooked
  · rw [if_neg (not_not.mpr hdelta), if_pos hruns]
    by_cases hpressed : a.counter.pressed = false
    · rw [if_pos hpressed, if_pos ⟨hdelta, hpressed⟩]
    · rw [if_neg hpressed, if_neg fun h => hpressed h.2]
  · rw [if_pos hdelta, if_neg hruns, if_neg fun h => hdelta h.1]

/-- The counter of a key that differs runs, and the one of a key that does not only for the lockout of a press. -/
theorem stable_iff (hd : 0 < d) (raw : Bool) (a : UnitState DebounceCounter Bool) :
    Stable (transferMatrixValues d) raw a ↔
      (raw ≠ a.cooked → a.counter.time ≠ 0) ∧ (raw = a.cooked → a.counter.time ≠ 0 → a.counter.pressed = true) := by
  by_cases hidle : a.counter.time = 0
  · rw [Stable, transfer_idle raw a hidle]
    by_cases hdelta : raw ≠ a.cooked
    · rw [if_pos hdelta]
      refine ⟨fun hstable => ?_, fun h => absurd hidle (h.1 hdelta)⟩
      have htime : d = a.counter.time := congrArg (fun a => a.counter.time) hstable
      omega
    · rw [if_neg hdelta]
      exact ⟨fun _ => ⟨fun h => absurd h hdelta, fun _ hruns => absurd hidle hruns⟩, fun _ => rfl⟩
  · rw [Stable, transfer_running raw a hidle]
    by_cases hcancel : raw = a.cooked ∧ a.counter.pressed = false
    · rw [if_pos hcancel]
      refine ⟨fun hstable => ?_, fun h => ?_⟩
      · exact absurd (congrArg (fun a => a.counter.time) hstable).symm hidle
      · exact absurd (h.2 hcancel.1 hidle) (Bool.eq_false_iff.mp hcancel.2)
    · rw [if_neg hcancel]
      refine ⟨fun _ => ⟨fun _ => hidle, fun heq _ => ?_⟩, fun _ => rfl⟩
      exact Bool.not_eq_false _ ▸ fun hfalse => hcancel ⟨heq, hfalse⟩

theorem update_idle (e : Nat) (raw : Bool) (a : UnitState DebounceCounter Bool) (hidle : a.counter.time = 0) :
    (updateDebounceCountersAndTransferIfExpired e raw a).toUnitState = a := by
  rw [updateDebounceCountersAndTransferIfExpired, if_neg (not_not.mpr hidle)]

theorem update_runs {e : Nat} (raw : Bool) {a : UnitState DebounceCounter Bool} (hruns : e < a.counter.time) :
    updateDebounceCountersAndTransferIfExpired e raw a =
      { a with counter := { a.counter with time := a.counter.time - e }, countersNeedUpdate := true } := by
  rw [updateDebounceCountersAndTransferIfExpired, if_pos (by omega), if_neg (by omega)]

theorem update_expires {e : Nat} (raw : Bool) {a : UnitState DebounceCounter Bool} (hruns : a.counter.time ≠ 0)
    (hexpires : a.counter.time ≤ e) :
    (updateDebounceCountersAndTransferIfExpired e raw a).toUnitState =
      ⟨{ a.counter with time := 0 }, if a.counter.pressed = true then a.cooked else raw⟩ := by
  rw [updateDebounceCountersAndTransferIfExpired, if_pos hruns, if_pos hexpires]
  split <;> rfl

theorem counter_cases (e : Nat) (a : UnitState DebounceCounter Bool) :
    a.counter.time = 0 ∨ e < a.counter.time ∨ (a.counter.time ≠ 0 ∧ a.counter.time ≤ e) := by
  omega

theorem separates (hd : 0 < d) :
    Separates (fun a : UnitState DebounceCounter Bool => a.counter.time ≠ 0)
      updateDebounceCountersAndTransferIfExpired (transferMatrixValues d) where
  update_zero raw a := by
    rcases counter_cases 0 a with hidle | hruns | ⟨hruns, hexpires⟩
    · exact update_idle 0 raw a hidle
    · rw [update_runs raw hruns]
      rfl
    · exact absurd (Nat.le_zero.mp hexpires) hruns
  update_idle e raw a hidle := update_idle e raw a (not_not.mp hidle)
  update_running e raw a hruns := by
    rcases counter_cases e a with hidle | hgoes | ⟨hran, hexpires⟩
    · rw [update_idle e raw a hidle] at hruns
      exact absurd hidle hruns
    · rw [update_runs raw hgoes]
    · rw [update_expires raw hran hexpires] at hruns
      exact absurd rfl hruns
  update_stable e raw a hstable hmatrix := by
    rw [stable_iff hd] at hstable ⊢
    rcases counter_cases e a with hidle | hgoes | ⟨hran, hexpires⟩
    · rwa [update_idle e raw a hidle]
    · rw [update_runs raw hgoes]
      refine ⟨fun _ => ?_, fun heq _ => hstable.2 heq (by omega)⟩
      show a.counter.time - e ≠ 0
      omega
    · have hdefer : ¬ a.counter.pressed = true := by
        intro hpressed
        rw [updateDebounceCountersAndTransferIfExpired, if_pos hran, if_pos hexpires, if_pos hpressed] at hmatrix
        exact Bool.false_ne_true hmatrix.symm
      rw [update_expires raw hran hexpires, if_neg hdefer]
      exact ⟨fun hne => absurd rfl hne, fun _ hruns => absurd rfl hruns⟩
  update_changed e raw a := by
    rw [updateDebounceCountersAndTransferIfExpired]
    split
    · split
      · split
        · simp
        · exact decide_eq_true_iff
      · simp
    · simp
  transfer_running raw a hruns := by
    by_cases hidle : a.counter.time = 0
    · rw [transfer_idle raw a hidle] at hruns
      by_cases hdelta : raw ≠ a.cooked
      · rw [transferMatrixValues, if_pos hdelta, if_pos hidle]
        exact .inr (by split <;> rfl)
      · rw [if_neg hdelta] at hruns
        exact .inl hruns
    · exact .inl hidle
  transfer_matrix raw a := by
    obtain ⟨⟨pressed, time⟩, cooked⟩ := a
    rw [transferMatrixValues]
    split
    · split
      · split <;> rfl
      · rfl
    · split
      · split <;> rfl
      · rfl
  transfer_stable raw a := by
    rw [stable_iff hd]
    by_cases hidle : a.counter.time = 0
    · rw [transfer_idle raw a hidle]
      by_cases hdelta : raw ≠ a.cooked
      · rw [if_pos hdelta]
        exact ⟨fun _ => Nat.ne_of_gt hd, fun heq _ => heq⟩
      · rw [if_neg hdelta]
        exact ⟨fun h => absurd h hdelta, fun _ hruns => absurd hidle hruns⟩
    · rw [transfer_running raw a hidle]
      by_cases hcancel : raw = a.cooked ∧ a.counter.pressed = false
      · rw [if_pos hcancel]
        exact ⟨fun h => absurd hcancel.1 h, fun _ hruns => absurd rfl hruns⟩
      · rw [if_neg hcancel]
        exact ⟨fun _ => hidle, fun heq _ => by_contra fun hfalse => hcancel ⟨heq, Bool.eq_false_iff.mpr hfalse⟩⟩
  transfer_changed raw a := by
    obtain ⟨⟨pressed, time⟩, cooked⟩ := a
    rw [transferMatrixValues]
    split
    · split
      · split
        · simp
        · simp
      · simp
    · split
      · split <;> simp
      · simp
  changes_once e raw a hne := by
    rcases counter_cases e a with hidle | hgoes | ⟨hran, hexpires⟩
    · rw [update_idle e raw a hidle] at hne
      exact absurd rfl hne
    · rw [update_runs raw hgoes] at hne
      exact absurd rfl hne
    · rw [update_expires raw hran hexpires] at hne ⊢
      rw [transfer_idle _ _ rfl]
      split at hne
      · exact absurd rfl hne
      · rename_i hdefer
        simp [hdefer]

theorem step_idle {e : Nat} {raw : Bool} {a : UnitState DebounceCounter Bool} (hidle : a.counter.time = 0) :
    unitStep updateDebounceCountersAndTransferIfExpired (transferMatrixValues d) e raw a =
      if raw ≠ a.cooked then ⟨⟨raw, d⟩, true⟩ else a := by
  rw [unitStep, update_idle e raw a hidle, transfer_idle raw a hidle]

theorem step_lockout {e time : Nat} {raw : Bool} (hruns : time ≠ 0) :
    unitStep updateDebounceCountersAndTransferIfExpired (transferMatrixValues d) e raw ⟨⟨true, time⟩, true⟩ =
      if e < time then ⟨⟨true, time - e⟩, true⟩ else if raw = true then ⟨⟨true, 0⟩, true⟩ else ⟨⟨false, d⟩, true⟩ := by
  rw [unitStep]
  split
  · rename_i hgoes
    rw [update_runs raw hgoes, transfer_running _ _ (show time - e ≠ 0 by omega)]
    exact if_neg fun hcancel => Bool.false_ne_true hcancel.2.symm
  · rename_i hexpires
    rw [update_expires raw hruns (Nat.le_of_not_lt hexpires), transfer_idle _ _ rfl]
    cases raw <;> rfl

theorem step_deferred {e time : Nat} {raw : Bool} (hruns : time ≠ 0) :
    unitStep updateDebounceCountersAndTransferIfExpired (transferMatrixValues d) e raw ⟨⟨false, time⟩, true⟩ =
      if raw = true then ⟨⟨false, 0⟩, true⟩ else if e < time then ⟨⟨false, time - e⟩, true⟩ else ⟨⟨false, 0⟩, false⟩ := by
  rw [unitStep]
  by_cases hgoes : e < time
  · rw [update_runs raw hgoes, transfer_running _ _ (show time - e ≠ 0 by omega), if_pos hgoes]
    cases raw <;> rfl
  · rw [update_expires raw hruns (Nat.le_of_not_lt hgoes), transfer_idle _ _ rfl, if_neg hgoes]
    cases raw <;> rfl

end Unit

section Run

variable {d m : Nat} {view : α → Bool} {state : List (Sample α) → UnitState DebounceCounter Bool}

def Steps (m d : Nat) (view : α → Bool) (state : List (Sample α) → UnitState DebounceCounter Bool) : Prop :=
  ∀ x h, Ordered (x :: h) → state (x :: h) =
    unitStep updateDebounceCountersAndTransferIfExpired (transferMatrixValues d) (saturate (tick m x h)) (view x.value)
      (state h)

def lockoutLeft (a : UnitState DebounceCounter Bool) : Nat := if a.counter.pressed = true then a.counter.time else 0

/-- The counter of a key covers the lockout of every press, and then the time that a release is deferred for. -/
structure Covers (d : Nat) (view : α → Bool) (state : List (Sample α) → UnitState DebounceCounter Bool)
    (h : List (Sample α)) : Prop where
  cooked : (state h).counter.time ≠ 0 → (state h).cooked = true
  lockout : ∀ p t, p :: t <:+ h → Presses (fun h => (state h).cooked) p t →
    p.time + d ≤ lockoutLeft (state h) + realTime h
  deferred : (state h).counter.time ≠ 0 → (state h).counter.pressed = false → ∃ y ∈ held view false h,
    (∀ p t, p :: t <:+ h → Presses (fun h => (state h).cooked) p t → p.time + d ≤ y.time) ∧
      y.time + d ≤ (state h).counter.time + realTime h

theorem phases (a : UnitState DebounceCounter Bool) (hcooked : a.counter.time ≠ 0 → a.cooked = true) :
    a.counter.time = 0 ∨ (∃ time, time ≠ 0 ∧ a = ⟨⟨true, time⟩, true⟩) ∨
      (∃ time, time ≠ 0 ∧ a = ⟨⟨false, time⟩, true⟩) := by
  obtain ⟨⟨pressed, time⟩, cooked⟩ := a
  by_cases hidle : time = 0
  · exact .inl hidle
  · obtain rfl : cooked = true := hcooked hidle
    cases pressed with
    | true => exact .inr (.inl ⟨time, hidle, rfl⟩)
    | false => exact .inr (.inr ⟨time, hidle, rfl⟩)

variable {x : Sample α} {h : List (Sample α)}

theorem elapsed_le (hordered : Ordered (x :: h)) (hne : h ≠ []) : realTime h + saturate (tick m x h) ≤ x.time := by
  cases h with
  | nil => exact absurd rfl hne
  | cons z h =>
    have htick := tick_le m x z h
    have hsat := saturate_le (tick m x (z :: h))
    have hle := (List.pairwise_cons.mp hordered).1 z List.mem_cons_self
    rw [realTime]
    omega

theorem presses_cases {out : List (Sample α) → Bool} {p : Sample α} {t : List (Sample α)}
    (hsuffix : p :: t <:+ x :: h) (hpress : Presses out p t) : (p = x ∧ Presses out x h) ∨ (p :: t <:+ h) := by
  rcases List.suffix_cons_iff.mp hsuffix with heq | hsuffix
  · obtain ⟨rfl, rfl⟩ := List.cons.inj heq
    exact .inl ⟨rfl, hpress⟩
  · exact .inr hsuffix

theorem Covers.before {x : Sample α} {h : List (Sample α)} (hcovers : Covers d view state h)
    (hordered : Ordered (x :: h)) (p : Sample α) (t : List (Sample α)) (hsuffix : p :: t <:+ h)
    (hpress : Presses (fun h => (state h).cooked) p t) :
    p.time + d + saturate (tick m x h) ≤ lockoutLeft (state h) + x.time := by
  have hlockout := hcovers.lockout p t hsuffix hpress
  have helapsed : _ + saturate (tick m x h) ≤ _ := elapsed_le hordered fun hnil =>
    List.cons_ne_nil p t (List.suffix_nil.mp (hnil ▸ hsuffix))
  omega

theorem Covers.kept {x : Sample α} {h : List (Sample α)} (hcovers : Covers d view state h)
    (hordered : Ordered (x :: h)) (hcooked : (state h).cooked = true) (p : Sample α) (t : List (Sample α))
    (hsuffix : p :: t <:+ x :: h) (hpress : Presses (fun h => (state h).cooked) p t) :
    p.time + d + saturate (tick m x h) ≤ lockoutLeft (state h) + x.time := by
  rcases presses_cases hsuffix hpress with ⟨rfl, hpress⟩ | hsuffix
  · exact absurd (hpress.1.symm.trans hcooked) Bool.false_ne_true
  · exact hcovers.before hordered p t hsuffix hpress

theorem mem_held_newest (hv : view x.value = false) :
    x ∈ held view false (x :: h) := held_cons_of_eq hv ▸ List.mem_cons_self

theorem covers_idle (hsteps : Steps m d view state) (hordered : Ordered (x :: h)) (hcovers : Covers d view state h)
    (hidle : (state h).counter.time = 0) : Covers d view state (x :: h) := by
  have hstep := hsteps x h hordered
  rw [step_idle hidle] at hstep
  have hleft : lockoutLeft (state h) = 0 := by
    rw [lockoutLeft, hidle, ite_self]
  have hbefore := @Covers.before _ d m view state x h hcovers hordered
  by_cases hdelta : view x.value ≠ (state h).cooked
  · rw [if_pos hdelta] at hstep
    cases hv : view x.value with
    | true =>
      -- The key is pressed, and locked out from now on.
      rw [hv] at hstep
      refine ⟨fun _ => by rw [hstep], fun p t hsuffix hpress => ?_, fun _ hfalse => ?_⟩
      · rw [hstep, realTime, lockoutLeft, if_pos rfl]
        rcases presses_cases hsuffix hpress with ⟨rfl, -⟩ | hsuffix
        · exact Nat.le_of_eq (Nat.add_comm _ _)
        · have hp := hbefore p t hsuffix hpress
          show p.time + d ≤ d + x.time
          omega
      · rw [hstep] at hfalse
        exact absurd hfalse.symm Bool.false_ne_true
    | false =>
      -- The release begins to be deferred.
      rw [hv] at hstep hdelta
      have hold : ∀ p t, p :: t <:+ x :: h → Presses (fun h => (state h).cooked) p t → p.time + d ≤ x.time := by
        intro p t hsuffix hpress
        have hp : _ + saturate (tick m x h) ≤ _ :=
          hcovers.kept hordered (Bool.eq_true_of_not_eq_false (Ne.symm hdelta)) p t hsuffix hpress
        omega
      refine ⟨fun _ => by rw [hstep], fun p t hsuffix hpress => ?_, fun _ _ => ⟨x, mem_held_newest hv, hold, ?_⟩⟩
      · exact Nat.le_trans (hold p t hsuffix hpress) (Nat.le_add_left _ _)
      · rw [hstep, realTime, Nat.add_comm]
  · rw [if_neg hdelta] at hstep
    refine ⟨fun hne => absurd (by rw [hstep, hidle]) hne, fun p t hsuffix hpress => ?_,
      fun hne => absurd (by rw [hstep, hidle]) hne⟩
    rcases presses_cases hsuffix hpress with ⟨rfl, hpress⟩ | hsuffix
    · have hsame : (state h).cooked = true := by
        rw [← hstep]
        exact hpress.2
      exact absurd (hpress.1.symm.trans hsame) Bool.false_ne_true
    · have hp := hbefore p t hsuffix hpress
      rw [hstep, realTime]
      omega

theorem covers_lockout (hsteps : Steps m d view state) (hordered : Ordered (x :: h))
    (hcovers : Covers d view state h) {time : Nat} (hruns : time ≠ 0) (hphase : state h = ⟨⟨true, time⟩, true⟩) :
    Covers d view state (x :: h) := by
  have hstep := hsteps x h hordered
  rw [hphase, step_lockout hruns] at hstep
  have hcooked : (state h).cooked = true := by rw [hphase]
  have hleft : lockoutLeft (state h) = time := by rw [hphase, lockoutLeft, if_pos rfl]
  have hkept := @Covers.kept _ d m view state x h hcovers hordered hcooked
  split at hstep
  · refine ⟨fun _ => by rw [hstep], fun p t hsuffix hpress => ?_, fun _ hfalse => ?_⟩
    · have hp := hkept p t hsuffix hpress
      rw [hstep, realTime, lockoutLeft, if_pos rfl]
      show p.time + d ≤ time - saturate (tick m x h) + x.time
      omega
    · rw [hstep] at hfalse
      exact absurd hfalse.symm Bool.false_ne_true
  · -- The lockout ends, and a release begins to be deferred if there is one.
    have hold : ∀ p t, p :: t <:+ x :: h → Presses (fun h => (state h).cooked) p t → p.time + d ≤ x.time := by
      intro p t hsuffix hpress
      have hp := hkept p t hsuffix hpress
      omega
    refine ⟨fun _ => ?_, fun p t hsuffix hpress => Nat.le_trans (hold p t hsuffix hpress) (Nat.le_add_left _ _),
      fun hne hfalse => ?_⟩
    · split at hstep <;> rw [hstep]
    · split at hstep
      · rw [hstep] at hne
        exact absurd rfl hne
      · rename_i hraw
        refine ⟨x, mem_held_newest (Bool.eq_false_iff.mpr hraw), hold, ?_⟩
        rw [hstep, realTime, Nat.add_comm]

theorem covers_deferred (hsteps : Steps m d view state) (hordered : Ordered (x :: h))
    (hcovers : Covers d view state h) {time : Nat} (hruns : time ≠ 0) (hphase : state h = ⟨⟨false, time⟩, true⟩) :
    Covers d view state (x :: h) := by
  have hstep := hsteps x h hordered
  rw [hphase, step_deferred hruns] at hstep
  have hcooked : (state h).cooked = true := by rw [hphase]
  have hleft : lockoutLeft (state h) = 0 := by
    rw [hphase, lockoutLeft]
    exact if_neg Bool.false_ne_true
  have hold : ∀ p t, p :: t <:+ x :: h → Presses (fun h => (state h).cooked) p t → p.time + d ≤ x.time := by
    intro p t hsuffix hpress
    have hp : _ + saturate (tick m x h) ≤ _ := hcovers.kept hordered hcooked p t hsuffix hpress
    omega
  have hlockout : ∀ p t, p :: t <:+ x :: h → Presses (fun h => (state h).cooked) p t →
      p.time + d ≤ lockoutLeft (state (x :: h)) + realTime (x :: h) :=
    fun p t hsuffix hpress => Nat.le_trans (hold p t hsuffix hpress) (Nat.le_add_left _ _)
  obtain ⟨y, hy, hafter, hleast⟩ := hcovers.deferred (by rw [hphase]; exact hruns) (by rw [hphase])
  split at hstep
  · exact ⟨fun _ => by rw [hstep], hlockout, fun hne => absurd (by rw [hstep]) hne⟩
  · rename_i hraw
    split at hstep
    · refine ⟨fun _ => by rw [hstep], hlockout, fun _ _ => ⟨y, ?_, ?_, ?_⟩⟩
      · rw [held_cons_of_eq (Bool.eq_false_iff.mpr hraw)]
        exact List.mem_cons_of_mem _ hy
      · intro p t hsuffix hpress
        rcases presses_cases hsuffix hpress with ⟨-, hpress⟩ | hsuffix
        · exact absurd (hpress.1.symm.trans hcooked) Bool.false_ne_true
        · exact hafter p t hsuffix hpress
      · have helapsed : _ + saturate (tick m x h) ≤ _ := elapsed_le hordered fun hnil =>
          List.not_mem_nil (hnil ▸ hy : y ∈ held view false [])
        rw [hphase] at hleast
        rw [hstep, realTime]
        show y.time + d ≤ time - saturate (tick m x h) + x.time
        change y.time + d ≤ time + realTime h at hleast
        omega
    · exact ⟨fun hne => absurd (by rw [hstep]) hne, hlockout, fun hne => absurd (by rw [hstep]) hne⟩

theorem covers_step (hsteps : Steps m d view state) (hordered : Ordered (x :: h)) (hcovers : Covers d view state h) :
    Covers d view state (x :: h) := by
  rcases phases (state h) hcovers.cooked with hidle | ⟨time, hruns, hphase⟩ | ⟨time, hruns, hphase⟩
  · exact covers_idle hsteps hordered hcovers hidle
  · exact covers_lockout hsteps hordered hcovers hruns hphase
  · exact covers_deferred hsteps hordered hcovers hruns hphase

theorem covers_run (hstart : (state []).counter.time = 0) (hsteps : Steps m d view state) (hordered : Ordered h) :
    Covers d view state h := by
  induction h with
  | nil => exact ⟨fun hne => absurd hstart hne, fun p t hsuffix => absurd (List.suffix_nil.mp hsuffix)
      (List.cons_ne_nil p t), fun hne => absurd hstart hne⟩
  | cons x h ih => exact covers_step hsteps hordered (ih hordered.tail)

theorem pressed_of_raw (hsteps : Steps m d view state) (hordered : Ordered (x :: h))
    (hcovers : Covers d view state h) (hraw : view x.value = true) : (state (x :: h)).cooked = true := by
  rw [hsteps x h hordered, hraw]
  rcases phases (state h) hcovers.cooked with hidle | ⟨time, hruns, hphase⟩ | ⟨time, hruns, hphase⟩
  · rw [step_idle hidle]
    split
    · rfl
    · rename_i hsame
      exact (not_not.mp hsame).symm
  · rw [hphase, step_lockout hruns]
    split <;> rfl
  · rw [hphase, step_deferred hruns]
    rfl

theorem asym_run (hstart : (state []).counter.time = 0) (hsteps : Steps m d view state) {scans : List (Sample α)}
    (hordered : Ordered scans) : AsymDebounce d view (fun h => (state h).cooked) scans where
  press x t hsuffix _ hraw := by
    have hx : Ordered (x :: t) := hordered.sublist hsuffix.sublist
    exact pressed_of_raw hsteps hx (covers_run hstart hsteps hx.tail) hraw
  release x t hsuffix hpressed hreleased := by
    have hx : Ordered (x :: t) := hordered.sublist hsuffix.sublist
    have hcovers := covers_run hstart hsteps hx.tail
    have hstep := hsteps x t hx
    rcases phases (state t) hcovers.cooked with hidle | ⟨time, hruns, hphase⟩ | ⟨time, hruns, hphase⟩
    · rw [step_idle hidle] at hstep
      split at hstep
      · exact absurd (hreleased.symm.trans (congrArg UnitState.cooked hstep)) Bool.false_ne_true
      · exact absurd ((hreleased.symm.trans (congrArg UnitState.cooked hstep)).trans hpressed) Bool.false_ne_true
    · have hcooked : (state (x :: t)).cooked = true := by
        rw [hstep, hphase, step_lockout hruns]
        split
        · rfl
        · split <;> rfl
      exact absurd (hreleased.symm.trans hcooked) Bool.false_ne_true
    · obtain ⟨y, hy, hafter, hleast⟩ := hcovers.deferred (by rw [hphase]; exact hruns) (by rw [hphase])
      have hraw : view x.value = false := by
        by_contra htrue
        have hcooked := pressed_of_raw hsteps hx hcovers (Bool.eq_true_of_not_eq_false htrue)
        exact Bool.false_ne_true (hreleased.symm.trans hcooked)
      have helapsed : _ + saturate (tick m x t) ≤ _ := elapsed_le hx fun hnil =>
        List.not_mem_nil (hnil ▸ hy : y ∈ held view false [])
      rw [hphase, step_deferred hruns, hraw, if_neg Bool.false_ne_true] at hstep
      refine ⟨y, held_cons_of_eq hraw ▸ List.mem_cons_of_mem _ hy, ?_, hafter⟩
      split at hstep
      · exact absurd (hreleased.symm.trans (congrArg UnitState.cooked hstep)) Bool.false_ne_true
      · rw [hphase] at hleast
        change y.time + d ≤ time + realTime t at hleast
        omega

def releaseLeft (d : Nat) (a : UnitState DebounceCounter Bool) : Nat :=
  if a.cooked = false then 0 else if a.counter.pressed = true then a.counter.time + d else a.counter.time

theorem releaseLeft_step {a : UnitState DebounceCounter Bool} (hd : 0 < d)
    (hcooked : a.counter.time ≠ 0 → a.cooked = true) (hstable : Stable (transferMatrixValues d) false a) (e : Nat) :
    let a' := unitStep updateDebounceCountersAndTransferIfExpired (transferMatrixValues d) e false a
    releaseLeft d a' ≤ releaseLeft d a ∧ (0 < e → 0 < releaseLeft d a → releaseLeft d a' < releaseLeft d a) := by
  intro a'
  rcases phases a hcooked with hidle | ⟨time, hruns, rfl⟩ | ⟨time, hruns, rfl⟩
  · have hreleased : a.cooked = false := by_contra fun hne => ((stable_iff hd _ _).mp hstable).1 (Ne.symm hne) hidle
    have hsame : a' = a := (step_idle hidle).trans (if_neg (not_not.mpr hreleased.symm))
    have hzero : releaseLeft d a = 0 := if_pos hreleased
    rw [hsame, hzero]
    exact ⟨Nat.le_refl 0, fun _ hpos => absurd hpos (Nat.lt_irrefl 0)⟩
  · have hstep : a' = _ := step_lockout hruns
    rw [hstep, releaseLeft, releaseLeft]
    split
    · show time - e + d ≤ time + d ∧ (0 < e → 0 < time + d → time - e + d < time + d)
      omega
    · show d ≤ time + d ∧ (0 < e → 0 < time + d → d < time + d)
      omega
  · have hstep : a' = _ := step_deferred hruns
    rw [hstep, if_neg Bool.false_ne_true, releaseLeft, releaseLeft]
    split
    · show time - e ≤ time ∧ (0 < e → 0 < time → time - e < time)
      omega
    · show 0 ≤ time ∧ (0 < e → 0 < time → 0 < time)
      omega

theorem released_of_left {a : UnitState DebounceCounter Bool} (hd : 0 < d)
    (hstable : Stable (transferMatrixValues d) false a) (hzero : releaseLeft d a = 0) : a.cooked = false := by
  by_contra hne
  have hruns := ((stable_iff hd _ _).mp hstable).1 (Ne.symm hne)
  rw [releaseLeft, if_neg hne] at hzero
  split at hzero <;> omega

theorem stable_of_raw (hd : 0 < d) (hsteps : Steps m d view state) (hordered : Ordered (x :: h)) :
    Stable (transferMatrixValues d) (view x.value) (state (x :: h)) := by
  rw [hsteps x h hordered]
  exact (separates hd).transfer_stable _ _

theorem asym_settles (hd : 0 < d) (hstart : (state []).counter.time = 0) (hsteps : Steps m d view state)
    {signal : Nat → Sample α} (hordered : ∀ n, (signal n).time ≤ (signal (n + 1)).time) :
    Settles (clockTime m) view (fun h => (state h).cooked) signal := by
  intro hclock v k hsettled
  have hcovers : ∀ n, Covers d view state (history signal n) :=
    fun n => covers_run hstart hsteps (ordered_history hordered n)
  cases v with
  | true =>
    refine ⟨k + 1, Nat.le_succ k, fun j hj => ?_⟩
    obtain ⟨i, rfl⟩ := Nat.exists_eq_add_of_le hj
    rw [Nat.add_right_comm]
    exact pressed_of_raw hsteps (ordered_history hordered (k + i + 1)) (hcovers (k + i))
      (hsettled (k + i) (Nat.le_add_right k i))
  | false =>
    have hstable : ∀ n, k ≤ n → Stable (transferMatrixValues d) false (state (history signal (n + 1))) := by
      intro n hn
      have hraw := stable_of_raw hd hsteps (ordered_history hordered (n + 1))
      rwa [hsettled n hn] at hraw
    -- One sample after the key has settled, what is left shrinks with every tick.
    have hstep : ∀ n, k ≤ n → _ := fun n hn =>
      releaseLeft_step hd (hcovers (n + 1)).cooked (hstable n hn)
        (saturate (tick m (signal (n + 1)) (history signal (n + 1))))
    have hnext : ∀ n, k ≤ n → state (history signal (n + 2)) =
        unitStep updateDebounceCountersAndTransferIfExpired (transferMatrixValues d)
          (saturate (tick m (signal (n + 1)) (history signal (n + 1)))) false (state (history signal (n + 1))) := by
      intro n hn
      have heq := hsteps (signal (n + 1)) (history signal (n + 1)) (ordered_history hordered (n + 2))
      rwa [hsettled (n + 1) (Nat.le_succ_of_le hn)] at heq
    have hmono : ∀ n, k ≤ n →
        releaseLeft d (state (history signal (n + 2))) ≤ releaseLeft d (state (history signal (n + 1))) := by
      intro n hn
      rw [hnext n hn]
      exact (hstep n hn).1
    have hshrinks : ∀ n, k ≤ n → ∃ j, n ≤ j ∧ (0 < releaseLeft d (state (history signal (j + 1))) →
        releaseLeft d (state (history signal (j + 2))) < releaseLeft d (state (history signal (j + 1)))) := by
      intro n hn
      obtain ⟨i, hi, htick⟩ := ticks_of_unbounded hclock (n + 1)
      obtain ⟨j, rfl⟩ := Nat.exists_eq_add_of_le' (Nat.le_trans (Nat.le_add_left 1 n) hi)
      have hkj : k ≤ j := by omega
      refine ⟨j, by omega, fun hpos => ?_⟩
      rw [hnext j hkj]
      exact (hstep j hkj).2 (le_saturate htick (by decide)) hpos
    obtain ⟨n, hn, hends⟩ : ∃ n, k ≤ n ∧ ∀ j, n ≤ j → releaseLeft d (state (history signal (j + 1))) = 0 :=
      ends_of_shrinks hmono hshrinks
    refine ⟨n + 1, Nat.le_succ_of_le hn, fun j hj => ?_⟩
    obtain ⟨i, rfl⟩ := Nat.exists_eq_add_of_le hj
    rw [Nat.add_right_comm]
    exact released_of_left hd (hstable (n + i) (Nat.le_trans hn (Nat.le_add_right n i))) (hends (n + i) (Nat.le_add_right n i))

end Run

section Matrix

variable [Fintype ι] {d : Nat} {size : TimerSize}

theorem debounce_eq (hpos : 0 < d) (hle : d ≤ 127) :
    debounce (ι := ι) size d =
      debounceUnits size updateDebounceCountersAndTransferIfExpired (transferMatrixValues d) := by
  have hmax : maximumDebounce d = d := if_neg (Nat.not_lt.mpr hle)
  funext time raw changed s
  rw [debounce, hmax, if_pos hpos]

def keyState (size : TimerSize) (d : Nat) (key : ι) (h : List (Scan ι Bool)) : UnitState DebounceCounter Bool :=
  (run (debounce size d) false (.initial elapsed false) h).unit key

omit [Fintype ι] in
theorem initial_stable (d : Nat) : Stable (transferMatrixValues d) false ⟨elapsed, false⟩ := rfl

theorem keyState_steps (size : TimerSize) (hpos : 0 < d) (hle : d ≤ 127) (key : ι) :
    Steps size.range d (fun m : ι → Bool => m key) (keyState size d key) := by
  intro x h hx
  rw [keyState, keyState, debounce_eq hpos hle]
  exact run_step (separates hpos) (not_not.mpr rfl) (initial_stable d) hx key

theorem keyState_independent (hpos : 0 < d) (hle : d ≤ 127) {key : ι} {h h' : List (Scan ι Bool)}
    (hordered : Ordered h) (hordered' : Ordered h') (hsame : samples (fun m => m key) h = samples (fun m => m key) h') :
    keyState size d key h = keyState size d key h' := by
  rw [keyState, keyState, debounce_eq hpos hle]
  exact run_independent (separates hpos) (not_not.mpr rfl) (initial_stable d) hordered hordered' hsame

def cookedKey (size : TimerSize) (d : Nat) (key : ι) (h : List (Scan ι Bool)) : Bool :=
  (run (debounce size d) false (.initial elapsed false) h).cooked key

end Matrix

end AsymEagerDefer

open AsymEagerDefer

/-- A press is taken on at once, a release after the lockout of the press and the debounce time. If the timer goes on,
what a key settles on reaches the cooked matrix. A key goes by its own raw values. -/
theorem asym_debounce (rows cols d : Nat) (size : TimerSize) (hpos : 0 < d) (hle : d ≤ 127) (key : Keys rows cols) :
    (∀ scans : List (Scan (Keys rows cols) Bool), Ordered scans →
      AsymDebounce d (fun m => m key) (cookedKey size d key) scans) ∧
    (∀ signal : Nat → Scan (Keys rows cols) Bool, (∀ n, (signal n).time ≤ (signal (n + 1)).time) →
      Settles (clockTime size.range) (fun m => m key) (cookedKey size d key) signal) ∧
    (∀ h h' : List (Scan (Keys rows cols) Bool), Ordered h → Ordered h' →
      samples (fun m => m key) h = samples (fun m => m key) h' → cookedKey size d key h = cookedKey size d key h') := by
  have hsteps := keyState_steps size hpos hle key
  exact ⟨fun scans => asym_run rfl hsteps, fun signal => asym_settles hpos rfl hsteps,
    fun h h' hh hh' hsame => congrArg UnitState.cooked (keyState_independent hpos hle hh hh' hsame)⟩

/-- A key that is pressed and released, with the default `DEBOUNCE`. -/
theorem asym_debounce_five :
    let scans : List (Scan (Keys 1 1) Bool) :=
      [⟨16, fun _ => false⟩, ⟨11, fun _ => false⟩, ⟨6, fun _ => false⟩, ⟨1, fun _ => true⟩]
    AsymDebounce 5 (fun m => m (0, 0)) (cookedKey .bits16 5 (0, 0)) scans :=
  (asym_debounce 1 1 5 .bits16 (by decide) (by decide) (0, 0)).1 _ (by simp [Ordered])

/-- One scan each time that the timer has turned over, with a key pressed at the first one. -/
def turnsOver (n : Nat) : Scan (Keys 1 1) Bool := ⟨n * 0x10000, fun _ => decide (n = 0)⟩

/-- Time goes on, and the timer does not. -/
theorem asym_turns_over :
    (∀ n, (turnsOver n).time ≤ (turnsOver (n + 1)).time) ∧
      ¬ Settles realTime (fun m => m (0, 0)) (cookedKey .bits16 5 (0, 0)) turnsOver := by
  have hordered : ∀ n, (turnsOver n).time ≤ (turnsOver (n + 1)).time :=
    fun n => Nat.mul_le_mul_right _ (Nat.le_succ n)
  have hlocked : ∀ n, keyState .bits16 5 (0, 0) (history turnsOver (n + 1)) = ⟨⟨true, 5⟩, true⟩ := by
    intro n
    induction n with
    | zero => decide
    | succ n ih =>
      have hstep := keyState_steps .bits16 (show 0 < 5 by decide) (by decide) (0, 0) (turnsOver (n + 1))
        (history turnsOver (n + 1)) (ordered_history hordered (n + 2))
      have htick : tick TimerSize.bits16.range (turnsOver (n + 1)) (history turnsOver (n + 1)) = 0 := by
        show ((n + 1) * 0x10000 - n * 0x10000) % 0x10000 = 0
        omega
      rw [ih, htick] at hstep
      exact hstep
  refine ⟨hordered, fun hsettles => ?_⟩
  have hgoes : ∀ t, ∃ n, t ≤ realTime (history turnsOver n) :=
    fun t => ⟨t + 1, Nat.le_mul_of_pos_right t (by decide)⟩
  obtain ⟨n, hn, hreleased⟩ := hsettles hgoes false 1 fun n hn => decide_eq_false (Nat.ne_of_gt hn)
  obtain ⟨i, rfl⟩ := Nat.exists_eq_add_of_le' hn
  have hcooked : cookedKey .bits16 5 (0, 0) (history turnsOver (i + 1)) = true := congrArg UnitState.cooked (hlocked i)
  exact Bool.false_ne_true ((hreleased (i + 1) (Nat.le_refl _)).symm.trans hcooked)

end Debounce
end VialQmk
