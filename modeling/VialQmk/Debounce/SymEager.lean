import VialQmk.Debounce.Units

/-!
# Debounce.SymEager

The symmetric algorithms that take on a change at once and then lock the unit out: `sym_eager_pk.c` for each
key and `sym_eager_pr.c` for each row.

* `EagerDebounce` is what they are for, with the clock that ends the lockout.
* `eager_debounce`: with the clock of the timer this is what they do in every run. The changes are apart in
  real time.
-/

namespace VialQmk
namespace Debounce

open Lib

variable {ι V α : Type}

section Code

variable [DecidableEq V]

namespace SymEager

def updateDebounceCounters (elapsedTime : Nat) (_ : V) (a : UnitState Nat V) : Round Nat V :=
  if a.counter ≠ 0 then
    if a.counter ≤ elapsedTime then { a with counter := 0, matrixNeedUpdate := true }
    else { a with counter := a.counter - elapsedTime, countersNeedUpdate := true }
  else { a with }

def transferMatrixValues (next : V → V → V) (debounce : Nat) (raw : V) (a : UnitState Nat V) : Round Nat V :=
  if raw ≠ a.cooked then
    if a.counter = 0 then
      { counter := debounce
        cooked := next raw a.cooked
        countersNeedUpdate := true
        cookedChanged := true }
    else { a with }
  else { a with }

def debounce [Fintype ι] (next : V → V → V) (size : TimerSize) (debounce time : Nat) (raw : ι → V) (changed : Bool)
    (s : CounterState Nat ι V) : Bool × CounterState Nat ι V :=
  if maximumDebounce debounce > 0 then
    debounceUnits size updateDebounceCounters (transferMatrixValues next (maximumDebounce debounce)) time raw changed s
  else
    let (cookedChanged, cooked) := debounceNone raw changed s.cooked
    (cookedChanged, { s with cooked })

end SymEager

def SymEagerPk.debounce {rows cols : Nat} : TimerSize → Nat → Nat → (Keys rows cols → Bool) → Bool →
    CounterState Nat (Keys rows cols) Bool → Bool × CounterState Nat (Keys rows cols) Bool :=
  SymEager.debounce fun _ existing => !existing

def SymEagerPr.debounce {rows cols : Nat} : TimerSize → Nat → Nat → (Fin rows → Fin cols → Bool) → Bool →
    CounterState Nat (Fin rows) (Fin cols → Bool) → Bool × CounterState Nat (Fin rows) (Fin cols → Bool) :=
  SymEager.debounce fun raw _ => raw

end Code

/-- Two changes of a unit are `ms` apart. A unit that differs from its raw value is remembered, and it takes on
its raw value at every scan at which no change is less than `ms` ago by the clock. -/
structure EagerDebounce [Fintype ι] [DecidableEq V] (clock : List (Scan ι V) → Nat) (ms : Nat)
    (debounce : Nat → (ι → V) → Bool → CounterState Nat ι V → Bool × CounterState Nat ι V) (off : V)
    (scans : List (Scan ι V)) : Prop where
  apart : ∀ u x h y h', x :: h <:+ scans → y :: h' <:+ h →
    Changes (fun h => (run debounce off (.initial 0 off) h).cooked u) x h →
    Changes (fun h => (run debounce off (.initial 0 off) h).cooked u) y h' → y.time + ms ≤ x.time
  remembered : ∀ u x h, x :: h <:+ scans → (run debounce off (.initial 0 off) (x :: h)).cooked u ≠ x.value u →
    (run debounce off (.initial 0 off) (x :: h)).counters u ≠ 0 ∧
      (run debounce off (.initial 0 off) (x :: h)).countersNeedUpdate = true
  reaches : ∀ u x h, x :: h <:+ scans →
    (∀ y h', y :: h' <:+ h → Changes (fun h => (run debounce off (.initial 0 off) h).cooked u) y h' →
      clock (y :: h') + ms ≤ clock (x :: h)) →
    (run debounce off (.initial 0 off) (x :: h)).cooked u = x.value u
  returns : ∀ x h, x :: h <:+ scans → (returned debounce off (.initial 0 off) (x :: h) = true ↔
    (run debounce off (.initial 0 off) (x :: h)).cooked ≠ (run debounce off (.initial 0 off) h).cooked)

theorem EagerDebounce.real [Fintype ι] [DecidableEq V] {m ms : Nat} {off : V} {scans : List (Scan ι V)}
    {debounce : Nat → (ι → V) → Bool → CounterState Nat ι V → Bool × CounterState Nat ι V}
    (hdebounce : EagerDebounce (clockTime m) ms debounce off scans) (hordered : Ordered scans)
    (hclose : Close m scans) : EagerDebounce realTime ms debounce off scans where
  apart := hdebounce.apart
  remembered := hdebounce.remembered
  reaches u x h hx hreal := by
    refine hdebounce.reaches u x h hx fun y h' hy hchange => ?_
    have hsuffix := hy.trans (List.suffix_cons x h)
    have hclock := clockTime_of_close (hordered.sublist hx.sublist) (fun z t hz => hclose z t (hz.trans hx)) hsuffix
    have hlate := hreal y h' hy hchange
    rw [realTime, realTime] at hlate
    rw [realTime] at hclock
    omega
  returns := hdebounce.returns

namespace SymEager

section Unit

variable [DecidableEq V] {next : V → V → V} {d : Nat}

omit [DecidableEq V] in
theorem update_toUnitState (e : Nat) (raw : V) (a : UnitState Nat V) :
    (updateDebounceCounters e raw a).toUnitState = ⟨a.counter - e, a.cooked⟩ := by
  rw [updateDebounceCounters]
  split
  · split
    · rename_i hexpired
      rw [Nat.sub_eq_zero_of_le hexpired]
    · rfl
  · rename_i hidle
    rw [show a.counter = 0 by omega, Nat.zero_sub, ← show a.counter = 0 by omega]

theorem transfer_toUnitState (hnext : ∀ raw existing, raw ≠ existing → next raw existing = raw) (raw : V)
    (a : UnitState Nat V) :
    (transferMatrixValues next d raw a).toUnitState =
      if raw ≠ a.cooked ∧ a.counter = 0 then ⟨d, raw⟩ else a := by
  rw [transferMatrixValues]
  by_cases hdelta : raw ≠ a.cooked
  · by_cases hidle : a.counter = 0
    · rw [if_pos hdelta, if_pos hidle, if_pos ⟨hdelta, hidle⟩, hnext raw a.cooked hdelta]
    · rw [if_pos hdelta, if_neg hidle, if_neg fun h => hidle h.2]
  · rw [if_neg hdelta, if_neg fun h => hdelta h.1]

theorem stable_iff (hnext : ∀ raw existing, raw ≠ existing → next raw existing = raw) (raw : V)
    (a : UnitState Nat V) :
    Stable (transferMatrixValues next d) raw a ↔ (raw ≠ a.cooked → a.counter ≠ 0) := by
  rw [Stable, transfer_toUnitState hnext]
  constructor
  · intro hstable hdelta hidle
    rw [if_pos ⟨hdelta, hidle⟩] at hstable
    exact hdelta (congrArg UnitState.cooked hstable)
  · intro hlocked
    exact if_neg fun h => hlocked h.1 h.2

theorem separates (hnext : ∀ raw existing, raw ≠ existing → next raw existing = raw) (hd : 0 < d) :
    Separates (fun a : UnitState Nat V => a.counter ≠ 0) updateDebounceCounters (transferMatrixValues next d) where
  update_zero raw a := update_toUnitState 0 raw a
  update_idle e raw a hidle := by
    rw [update_toUnitState, show a.counter - e = a.counter by omega]
  update_running e raw a hruns := by
    rw [update_toUnitState] at hruns
    change a.counter - e ≠ 0 at hruns
    rw [updateDebounceCounters, if_pos (by omega), if_neg (by omega)]
  update_stable e raw a hstable hmatrix := by
    rw [stable_iff hnext] at hstable ⊢
    rw [update_toUnitState]
    intro hdelta hexpired
    change a.counter - e = 0 at hexpired
    have hlocked := hstable hdelta
    rw [updateDebounceCounters, if_pos hlocked, if_pos (by omega)] at hmatrix
    exact Bool.false_ne_true hmatrix.symm
  update_changed e raw a := by
    have hcooked : (updateDebounceCounters e raw a).cooked = a.cooked := by rw [update_toUnitState]
    rw [hcooked, updateDebounceCounters]
    split
    · split <;> simp
    · simp
  transfer_running raw a hruns := by
    rw [transferMatrixValues] at hruns ⊢
    by_cases hdelta : raw ≠ a.cooked
    · by_cases hidle : a.counter = 0
      · rw [if_pos hdelta, if_pos hidle]
        exact .inr rfl
      · exact .inl hidle
    · rw [if_neg hdelta] at hruns
      exact .inl hruns
  transfer_matrix raw a := by
    rw [transferMatrixValues]
    split
    · split <;> rfl
    · rfl
  transfer_stable raw a := by
    rw [stable_iff hnext, transfer_toUnitState hnext]
    split
    · exact fun _ => Nat.ne_of_gt hd
    · rename_i hlocked
      exact fun hdelta hidle => hlocked ⟨hdelta, hidle⟩
  transfer_changed raw a := by
    rw [transferMatrixValues]
    split
    · rename_i hdelta
      split
      · simp only [hnext raw a.cooked hdelta, true_iff]
        exact hdelta
      · simp
    · simp
  changes_once e raw a hne := absurd (by rw [update_toUnitState]) hne

theorem unitStep_eq (hnext : ∀ raw existing, raw ≠ existing → next raw existing = raw) (e : Nat) (raw : V)
    (a : UnitState Nat V) :
    unitStep updateDebounceCounters (transferMatrixValues next d) e raw a =
      if raw ≠ a.cooked ∧ a.counter - e = 0 then ⟨d, raw⟩ else ⟨a.counter - e, a.cooked⟩ := by
  rw [unitStep, transfer_toUnitState hnext, update_toUnitState]

end Unit

section Lockout

variable [DecidableEq V] {d m : Nat} {view : α → V} {state : List (Sample α) → UnitState Nat V} {off : V}

def Steps (m d : Nat) (view : α → V) (state : List (Sample α) → UnitState Nat V) : Prop :=
  ∀ x h, Ordered (x :: h) → state (x :: h) =
    if view x.value ≠ (state h).cooked ∧ (state h).counter - saturate (tick m x h) = 0 then ⟨d, view x.value⟩
    else ⟨(state h).counter - saturate (tick m x h), (state h).cooked⟩

/-- The counter of a unit has what is left of the debounce time since its last change. -/
structure Lockout (m d : Nat) (state : List (Sample α) → UnitState Nat V) (h : List (Sample α)) : Prop where
  bound : (state h).counter ≤ d
  apart : ∀ y h', y :: h' <:+ h → Changes (fun h => (state h).cooked) y h' →
    y.time + d ≤ (state h).counter + realTime h
  locked : (state h).counter ≠ 0 → ∃ y h', y :: h' <:+ h ∧ Changes (fun h => (state h).cooked) y h' ∧
    (state h).counter + clockTime m h = clockTime m (y :: h') + d

variable {h : List (Sample α)}

theorem Steps.changes (hsteps : Steps m d view state) {x : Sample α} (hordered : Ordered (x :: h))
    (hchange : Changes (fun h => (state h).cooked) x h) :
    (state h).counter - saturate (tick m x h) = 0 ∧ state (x :: h) = ⟨d, view x.value⟩ := by
  have heq := hsteps x h hordered
  split at heq
  · rename_i htaken
    exact ⟨htaken.2, heq⟩
  · exact absurd (congrArg UnitState.cooked heq) hchange

omit [DecidableEq V] in
theorem Lockout.later {x y : Sample α} {h' : List (Sample α)} (hlock : Lockout m d state h)
    (hordered : Ordered (x :: h)) (hsuffix : y :: h' <:+ h) (hchange : Changes (fun h => (state h).cooked) y h') :
    y.time + d ≤ (state h).counter - saturate (tick m x h) + x.time := by
  have hapart := hlock.apart y h' hsuffix hchange
  cases h with
  | nil => exact absurd (List.suffix_nil.mp hsuffix) (List.cons_ne_nil y h')
  | cons z h =>
    have htick := tick_le m x z h
    have hsat := saturate_le (tick m x (z :: h))
    have hle := (List.pairwise_cons.mp hordered).1 z List.mem_cons_self
    rw [realTime] at hapart
    omega

theorem lockout (hstart : (state []).counter = 0) (hd : d ≤ uint8Max) (hsteps : Steps m d view state)
    (hordered : Ordered h) : Lockout m d state h := by
  induction h with
  | nil => exact ⟨hstart ▸ Nat.zero_le d, fun y h' hsuffix => absurd (List.suffix_nil.mp hsuffix) (List.cons_ne_nil y h'),
      fun hne => absurd hstart hne⟩
  | cons x h ih =>
    have hlock := ih hordered.tail
    have hstep := hsteps x h hordered
    by_cases htaken : view x.value ≠ (state h).cooked ∧ (state h).counter - saturate (tick m x h) = 0
    · -- The unit takes on its raw value and is locked out.
      rw [if_pos htaken] at hstep
      have hchange : Changes (fun h => (state h).cooked) x h := by
        show (state (x :: h)).cooked ≠ (state h).cooked
        rw [hstep]
        exact htaken.1
      refine ⟨by rw [hstep], fun y h' hsuffix hchange' => ?_, fun _ => ⟨x, h, List.suffix_refl _, hchange, ?_⟩⟩
      · rw [hstep, realTime]
        rcases List.suffix_cons_iff.mp hsuffix with heq | hsuffix
        · rw [(List.cons.inj heq).1, Nat.add_comm]
        · have hlater := hlock.later hordered hsuffix hchange'
          show y.time + d ≤ d + x.time
          omega
      · rw [hstep, Nat.add_comm]
    · rw [if_neg htaken] at hstep
      have hkeep : ¬ Changes (fun h => (state h).cooked) x h := by
        intro hchange
        exact hchange (by show (state (x :: h)).cooked = _; rw [hstep])
      refine ⟨?_, fun y h' hsuffix hchange => ?_, fun hruns => ?_⟩
      · rw [hstep]
        exact Nat.le_trans (Nat.sub_le _ _) hlock.bound
      · rcases List.suffix_cons_iff.mp hsuffix with heq | hsuffix
        · obtain ⟨rfl, rfl⟩ := List.cons.inj heq
          exact absurd hchange hkeep
        · rw [hstep, realTime]
          exact hlock.later hordered hsuffix hchange
      · rw [hstep] at hruns ⊢
        change (state h).counter - saturate (tick m x h) ≠ 0 at hruns
        obtain ⟨y, h', hsuffix, hchange, hleft⟩ := hlock.locked (by omega)
        refine ⟨y, h', hsuffix.trans (List.suffix_cons x h), hchange, ?_⟩
        -- The counter is a byte, so it ends before the time is cut off.
        have hexact : saturate (tick m x h) = tick m x h := by
          have hbound := hlock.bound
          rw [saturate] at hruns ⊢
          split at hruns
          · omega
          · rename_i hsmall
            exact if_neg hsmall
        rw [hexact] at hruns ⊢
        show (state h).counter - tick m x h + (clockTime m h + tick m x h) = _
        omega

end Lockout

section Matrix

variable [Fintype ι] [DecidableEq V] {next : V → V → V} {d : Nat} {off : V} {size : TimerSize}

theorem debounce_eq (hpos : 0 < d) (hle : d ≤ uint8Max) :
    debounce (ι := ι) next size d = debounceUnits size updateDebounceCounters (transferMatrixValues next d) := by
  have hmax : maximumDebounce d = d := if_neg (Nat.not_lt.mpr hle)
  funext time raw changed s
  rw [debounce, hmax, if_pos hpos]

theorem exact (hnext : ∀ raw existing, raw ≠ existing → next raw existing = raw) (hpos : 0 < d) (hle : d ≤ uint8Max)
    {scans : List (Scan ι V)} (hordered : Ordered scans) :
    EagerDebounce (clockTime size.range) d (debounce next size d) off scans := by
  rw [debounce_eq hpos hle]
  have hsep := separates hnext hpos
  have hstable : Stable (transferMatrixValues next d) off ⟨0, off⟩ :=
    (stable_iff hnext _ _).mpr fun hne => absurd rfl hne
  have hidle : ¬ (⟨0, off⟩ : UnitState Nat V).counter ≠ 0 := not_not.mpr rfl
  have hbetween : ∀ h : List (Scan ι V), h <:+ scans → Between size (fun a => a.counter ≠ 0)
      (transferMatrixValues next d) off h
      (run (debounceUnits size updateDebounceCounters (transferMatrixValues next d)) off (.initial 0 off) h) :=
    fun h hsuffix => (run_unit hsep hidle hstable (hordered.sublist hsuffix.sublist)).1
  have hsteps : ∀ u, Steps size.range d (fun m : ι → V => m u) fun h =>
      (run (debounceUnits size updateDebounceCounters (transferMatrixValues next d)) off (.initial 0 off) h).unit u := by
    intro u x h hx
    exact (run_step hsep hidle hstable hx u).trans (unitStep_eq hnext _ _ _)
  have hlock := fun u h (hsuffix : h <:+ scans) => lockout rfl hle (hsteps u) (hordered.sublist hsuffix.sublist)
  refine ⟨fun u x h y h' hx hy hchange hchange' => ?_, fun u x h hx hdiffers => ?_, fun u x h hx hclock => ?_,
    fun x h hx => call_returned hsep⟩
  · have hxh := hordered.sublist hx.sublist
    have hlater := (hlock u h ((List.suffix_cons x h).trans hx)).later hxh hy hchange'
    have hended := ((hsteps u).changes hxh hchange).1
    omega
  · have hs := hbetween (x :: h) hx
    have hlocked := (stable_iff hnext _ _).mp (hs.stable u) (Ne.symm hdiffers)
    exact ⟨hlocked, hs.flagged u hlocked⟩
  · by_contra hdiffers
    have hs := hbetween (x :: h) hx
    have hlocked := (stable_iff hnext _ _).mp (hs.stable u) (Ne.symm hdiffers)
    obtain ⟨y, h', hsuffix, hchange, hleft⟩ := (hlock u (x :: h) hx).locked hlocked
    rcases List.suffix_cons_iff.mp hsuffix with heq | hsuffix
    · obtain ⟨rfl, rfl⟩ := List.cons.inj heq
      have hchanged := ((hsteps u).changes (hordered.sublist hx.sublist) hchange).2
      exact hdiffers (congrArg UnitState.cooked hchanged)
    · have hreach := hclock y h' hsuffix hchange
      change _ ≠ 0 at hlocked
      omega

end Matrix

end SymEager

/-- Both algorithms keep the changes of a unit apart and forget none. The lockout ends by the timer, which tells the
time from one scan to the next up to its range. -/
theorem eager_debounce (rows cols d : Nat) (size : TimerSize) (hpos : 0 < d) (hle : d ≤ uint8Max) :
    (∀ scans : List (Scan (Keys rows cols) Bool), Ordered scans →
      EagerDebounce (clockTime size.range) d (SymEagerPk.debounce size d) false scans) ∧
    (∀ scans : List (Scan (Fin rows) (Fin cols → Bool)), Ordered scans →
      EagerDebounce (clockTime size.range) d (SymEagerPr.debounce size d) (fun _ => false) scans) := by
  refine ⟨fun scans => SymEager.exact ?_ hpos hle, fun scans => SymEager.exact (fun _ _ _ => rfl) hpos hle⟩
  decide

theorem eager_debounce_five :
    let scans : List (Scan (Keys 1 1) Bool) := [⟨6, fun _ => true⟩, ⟨3, fun _ => false⟩, ⟨1, fun _ => true⟩]
    EagerDebounce (clockTime TimerSize.bits16.range) 5 (SymEagerPk.debounce .bits16 5) false scans :=
  (eager_debounce 1 1 5 .bits16 (by decide) (by decide)).1 _ (by simp [Ordered])

/-- A scan that comes when the timer has just turned over does not end the lockout. -/
theorem sym_eager_turns_over :
    let scans : List (Scan (Keys 1 1) Bool) := [⟨0x10000, fun _ => false⟩, ⟨0, fun _ => true⟩]
    Ordered scans ∧ ¬ EagerDebounce realTime 5 (SymEagerPk.debounce .bits16 5) false scans := by
  refine ⟨by simp [Ordered], fun hdebounce => ?_⟩
  have hreach := hdebounce.reaches (0, 0) _ _ (List.suffix_refl _) fun y h' hsuffix _ => ?_
  · exact absurd hreach (by decide)
  · rcases List.suffix_cons_iff.mp hsuffix with heq | hsuffix
    · rw [heq]
      decide
    · exact absurd (List.suffix_nil.mp hsuffix) (List.cons_ne_nil _ _)

end Debounce
end VialQmk
