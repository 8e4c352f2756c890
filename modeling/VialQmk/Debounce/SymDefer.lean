import VialQmk.Debounce.Counters

/-!
# Debounce.SymDefer

The symmetric algorithms that defer a change: `sym_defer_pk.c` for each key, `sym_defer_pr.c` for each row
and `sym_defer_g.c` for the whole matrix, with `none.c`, which two of them become without a debounce time.

* `DefersExactly` is what they are for: a unit takes on its raw value at the first scan at which it has had
  this value for the debounce time.
* `deferred_debounce_exact`: in a run whose scans are `Timely` this is what they do. `sym_defer_pr.c` also
  needs a debounce time that its counters can hold and that is not zero.
-/

namespace VialQmk
namespace Debounce

open Lib

variable {ι V β U σ : Type}

/-! ## The algorithms -/

section Code

variable [Fintype ι] [DecidableEq V]

namespace SymDeferPk

def updateDebounceCountersAndTransferIfExpired (raw : ι → V) (elapsedTime : Nat) (s : CounterState Nat ι V) :
    CounterState Nat ι V :=
  { s with
    counters := fun u => if s.counters u ≠ 0 ∧ s.counters u ≤ elapsedTime then 0 else s.counters u - elapsedTime
    countersNeedUpdate := decide (∃ u, elapsedTime < s.counters u)
    cooked := fun u => if s.counters u ≠ 0 ∧ s.counters u ≤ elapsedTime then raw u else s.cooked u
    cookedChanged := s.cookedChanged ||
      decide (∃ u, (s.counters u ≠ 0 ∧ s.counters u ≤ elapsedTime) ∧ s.cooked u ≠ raw u) }

def startDebounceCounters (debounce : Nat) (raw : ι → V) (s : CounterState Nat ι V) : CounterState Nat ι V :=
  { s with
    counters := fun u =>
      if raw u ≠ s.cooked u then (if s.counters u = 0 then debounce else s.counters u) else 0
    countersNeedUpdate := s.countersNeedUpdate || decide (∃ u, raw u ≠ s.cooked u ∧ s.counters u = 0) }

def debounceKeys (size : TimerSize) (debounce time : Nat) (raw : ι → V) (changed : Bool) :
    CounterState Nat ι V → Bool × CounterState Nat ι V :=
  debounceCounters size (updateDebounceCountersAndTransferIfExpired raw) (startDebounceCounters debounce raw)
    time changed

def debounce (size : TimerSize) (debounce time : Nat) (raw : ι → V) (changed : Bool) (s : CounterState Nat ι V) :
    Bool × CounterState Nat ι V :=
  if maximumDebounce debounce > 0 then debounceKeys size (maximumDebounce debounce) time raw changed s
  else
    let (cookedChanged, cooked) := debounceNone raw changed s.cooked
    (cookedChanged, { s with cooked })

end SymDeferPk

namespace SymDeferPr

structure State (ι V : Type) where
  lastTime : Nat
  countdowns : ι → Nat
  lastRaw : ι → V
  cooked : ι → V

/-- As after `debounce_init` at the time, with nothing pressed. -/
def State.initial (time : Nat) (off : V) : State ι V :=
  ⟨timerRead .bits16 time, fun _ => 0, fun _ => off, fun _ => off⟩

/-- The countdowns are bytes, and `DEBOUNCE` is not cut off. -/
def debounce (debounce time : Nat) (raw : ι → V) (_ : Bool) (s : State ι V) : Bool × State ι V :=
  let now := timerRead .bits16 time
  let elapsed := saturate (timerDiff .bits16 now s.lastTime)
  let expires row := raw row = s.lastRaw row ∧ s.countdowns row ≤ elapsed ∧ s.countdowns row ≠ 0
  (decide (∃ row, expires row ∧ s.cooked row ≠ raw row),
    { lastTime := now
      countdowns := fun row =>
        if raw row ≠ s.lastRaw row then debounce % 256
        else if s.countdowns row > elapsed then s.countdowns row - elapsed
        else 0
      lastRaw := raw
      cooked := fun row => if expires row then raw row else s.cooked row })

end SymDeferPr

namespace SymDeferG

structure State (ι V : Type) where
  debouncing : Bool
  debouncingTime : Nat
  cooked : ι → V

def State.initial (off : V) : State ι V := ⟨false, 0, fun _ => off⟩

def debounceMatrix (size : TimerSize) (debounce time : Nat) (raw : ι → V) (changed : Bool) (s : State ι V) :
    Bool × State ι V :=
  if changed = true then (false, { s with debouncing := true, debouncingTime := timerRead size time })
  else if s.debouncing = true ∧ timerDiff size (timerRead size time) s.debouncingTime ≥ debounce then
    if s.cooked ≠ raw then (true, { s with cooked := raw, debouncing := false })
    else (false, { s with debouncing := false })
  else (false, s)

def debounce (size : TimerSize) (debounce time : Nat) (raw : ι → V) (changed : Bool) (s : State ι V) :
    Bool × State ι V :=
  if maximumDebounce debounce > 0 then debounceMatrix size (maximumDebounce debounce) time raw changed s
  else
    let (cookedChanged, cooked) := debounceNone raw changed s.cooked
    (cookedChanged, { s with cooked })

end SymDeferG

end Code

/-! ## What they are for -/

section Purpose

variable [Fintype ι] [DecidableEq V] [DecidableEq β]

/-- The unit takes on the raw value of the newest scan if it has been raw for the debounce time, and keeps
its value otherwise. -/
def Defers (unit : (ι → V) → β) (ms : Nat) (x : Scan ι V) (h : List (Scan ι V)) (cooked cooked' : ι → V) : Prop :=
  (HeldFor unit (unit x.value) ms (x :: h) → unit cooked' = unit x.value) ∧
    (¬ HeldFor unit (unit x.value) ms (x :: h) → unit cooked' = unit cooked)

/-- At every scan of the run each unit defers, and `debounce` returns whether the cooked matrix has changed. -/
def DefersExactly (unit : U → (ι → V) → β) (ms : Nat) (debounce : Nat → (ι → V) → Bool → σ → Bool × σ)
    (cooked : σ → ι → V) (off : V) (start : σ) (scans : List (Scan ι V)) : Prop :=
  ∀ x h, x :: h <:+ scans →
    (∀ u, Defers (unit u) ms x h (cooked (run debounce off start h)) (cooked (run debounce off start (x :: h)))) ∧
      (returned debounce off start (x :: h) = true ↔
        cooked (run debounce off start (x :: h)) ≠ cooked (run debounce off start h))

def Waits (unit : (ι → V) → β) (x : Scan ι V) (off : V) (h : List (Scan ι V)) (cooked : ι → V) : Prop :=
  unit x.value = unit (lastRaw off h) ∧ unit (lastRaw off h) ≠ unit cooked

/-- If the debounce time of a unit ends at the newest scan, then also by the timer, which tells the time
since the scan before up to its range. -/
def EndsOnTimer (size : TimerSize) (unit : (ι → V) → β) (ms : Nat) (x : Scan ι V) (h : List (Scan ι V)) : Prop :=
  ∀ start, HeldSince unit (unit x.value) start h → start + ms ≤ x.time →
    ∀ y ∈ h.head?, ms ≤ (y.time - start) + (x.time - y.time) % size.range

/-- The same for a timer that is read when the unit changes. -/
def EndsOnTimerSince (size : TimerSize) (unit : (ι → V) → β) (ms : Nat) (x : Scan ι V) (h : List (Scan ι V)) :
    Prop :=
  ∀ start, HeldSince unit (unit x.value) start h → start + ms ≤ x.time → ms ≤ (x.time - start) % size.range

/-- At every scan the debounce time of each unit that waits ends on the timer, if it ends. -/
def Timely (unit : U → (ι → V) → β) (ends : ((ι → V) → β) → Scan ι V → List (Scan ι V) → Prop)
    (debounce : Nat → (ι → V) → Bool → σ → Bool × σ) (cooked : σ → ι → V) (off : V) (start : σ)
    (scans : List (Scan ι V)) : Prop :=
  ∀ x h, x :: h <:+ scans → ∀ u, Waits (unit u) x off h (cooked (run debounce off start h)) → ends (unit u) x h

end Purpose

/-! ## Runs -/

section Runs

variable [Fintype ι] [DecidableEq V] [DecidableEq β] {debounce : Nat → (ι → V) → Bool → σ → Bool × σ}
  {cooked : σ → ι → V} {off : V} {start : σ} {unit : U → (ι → V) → β} {ms : Nat}

theorem defersExactly_of {ends : ((ι → V) → β) → Scan ι V → List (Scan ι V) → Prop}
    (Inv : List (Scan ι V) → σ → Prop) (hinit : Inv [] start)
    (hstep : ∀ x h s, Ordered (x :: h) → Inv h s →
      (∀ u, Waits (unit u) x off h (cooked s) → ends (unit u) x h) →
      Inv (x :: h) (debounce x.time x.value (decide (x.value ≠ lastRaw off h)) s).2 ∧
      (∀ u, Defers (unit u) ms x h (cooked s)
        (cooked (debounce x.time x.value (decide (x.value ≠ lastRaw off h)) s).2)) ∧
      ((debounce x.time x.value (decide (x.value ≠ lastRaw off h)) s).1 = true ↔
        cooked (debounce x.time x.value (decide (x.value ≠ lastRaw off h)) s).2 ≠ cooked s))
    {scans : List (Scan ι V)} (hordered : Ordered scans)
    (htimely : Timely unit ends debounce cooked off start scans) :
    DefersExactly unit ms debounce cooked off start scans := by
  have hinv : ∀ h, h <:+ scans → Inv h (run debounce off start h) := by
    intro h
    induction h with
    | nil => exact fun _ => hinit
    | cons x h ih =>
      intro hsuffix
      have hbefore := ih ((List.suffix_cons x h).trans hsuffix)
      exact (hstep x h _ (hordered.sublist hsuffix.sublist) hbefore (htimely x h hsuffix)).1
  intro x h hsuffix
  have hbefore := hinv h ((List.suffix_cons x h).trans hsuffix)
  exact (hstep x h _ (hordered.sublist hsuffix.sublist) hbefore (htimely x h hsuffix)).2

theorem timely_of_lt_range {size : TimerSize} {scans : List (Scan ι V)} (hordered : Ordered scans)
    (hlt : ∀ x ∈ scans, x.time < size.range) :
    Timely unit (fun unit => EndsOnTimer size unit ms) debounce cooked off start scans ∧
      Timely unit (fun unit => EndsOnTimerSince size unit ms) debounce cooked off start scans := by
  refine ⟨fun x h hsuffix u _ since hsince hend y hy => ?_, fun x h hsuffix u _ since _ hend => ?_⟩ <;>
    have hx := hlt x (hsuffix.subset List.mem_cons_self)
  · obtain ⟨h', rfl⟩ := List.head?_eq_some_iff.mp hy
    have hyx := (List.pairwise_cons.mp (hordered.sublist hsuffix.sublist)).1 y List.mem_cons_self
    rw [Nat.mod_eq_of_lt (by omega)]
    omega
  · rw [Nat.mod_eq_of_lt (by omega)]
    omega

omit [Fintype ι] [DecidableEq V] in
theorem heldSince_scan {x : Scan ι V} {h : List (Scan ι V)} (unit : (ι → V) → β)
    (hnew : unit x.value ≠ unit (lastRaw off h)) : HeldSince unit (unit x.value) x.time (x :: h) := by
  refine heldSince_new rfl ?_
  cases h with
  | nil => rfl
  | cons y h => exact held_cons_of_ne fun heq => hnew heq.symm

omit [Fintype ι] [DecidableEq V] in
theorem not_heldFor_new {x : Scan ι V} {h : List (Scan ι V)} {unit : (ι → V) → β}
    (hnew : unit x.value ≠ unit (lastRaw off h)) (hms : 0 < ms) : ¬ HeldFor unit (unit x.value) ms (x :: h) := by
  rw [heldFor_iff (heldSince_scan unit hnew)]
  omega

end Runs

/-! ## none.c -/

section None

variable [Fintype ι] [DecidableEq V] {off : V}

theorem debounceNone_eq {raw cooked : ι → V} {changed : Bool} (h : changed = false → cooked = raw) :
    (debounceNone raw changed cooked).2 = raw ∧ ((debounceNone raw changed cooked).1 = true ↔ raw ≠ cooked) := by
  rw [debounceNone]
  split
  · rename_i hcopy
    exact ⟨rfl, fun _ => hcopy.2.symm, fun _ => rfl⟩
  · rename_i hkeep
    have heq : cooked = raw := by
      by_contra hne
      exact hkeep ⟨by_contra fun hchanged => hne (h (Bool.eq_false_iff.mpr hchanged)), hne⟩
    exact ⟨heq, fun hfalse => absurd hfalse Bool.false_ne_true, fun hne => absurd heq.symm hne⟩

omit [Fintype ι] [DecidableEq V] in
theorem heldFor_zero [DecidableEq β] (unit : (ι → V) → β) (x : Scan ι V) (h : List (Scan ι V)) :
    HeldFor unit (unit x.value) 0 (x :: h) := by
  refine ⟨x, ?_, Nat.le_refl _⟩
  rw [held_cons_of_eq rfl]
  exact List.mem_cons_self

theorem none_exact [DecidableEq β] {unit : U → (ι → V) → β} {debounce : Nat → (ι → V) → Bool → σ → Bool × σ}
    {cooked : σ → ι → V} {start : σ} (hstart : cooked start = fun _ => off)
    (hnone : ∀ time raw changed s, (debounce time raw changed s).1 = (debounceNone raw changed (cooked s)).1 ∧
      cooked (debounce time raw changed s).2 = (debounceNone raw changed (cooked s)).2)
    {ends : ((ι → V) → β) → Scan ι V → List (Scan ι V) → Prop} {scans : List (Scan ι V)} (hordered : Ordered scans)
    (htimely : Timely unit ends debounce cooked off start scans) :
    DefersExactly unit 0 debounce cooked off start scans := by
  refine defersExactly_of (fun h s => cooked s = lastRaw off h) hstart ?_ hordered htimely
  intro x h s _ hinv _
  obtain ⟨hreturned, hcooked⟩ := hnone x.time x.value (decide (x.value ≠ lastRaw off h)) s
  have hsame : decide (x.value ≠ lastRaw off h) = false → cooked s = x.value := by
    intro hsame
    rw [hinv]
    exact (not_not.mp (of_decide_eq_false hsame)).symm
  obtain ⟨hcopy, hchanged⟩ := debounceNone_eq hsame
  rw [hreturned, hcooked, hcopy]
  exact ⟨rfl, fun u => ⟨fun _ => rfl, fun hnot => absurd (heldFor_zero (unit u) x h) hnot⟩, hchanged⟩

end None

/-! ## sym_defer_pk.c -/

namespace SymDeferPk

variable [Fintype ι] {size : TimerSize} {raw : ι → Bool} {time : Nat} {s : CounterState Nat ι Bool}

section Update

variable (size raw time s)

def updated : CounterState Nat ι Bool :=
  updateCounters size (updateDebounceCountersAndTransferIfExpired raw) time s

theorem updated_cases :
    (s.countersNeedUpdate = true ∧ updated size raw time s =
      updateDebounceCountersAndTransferIfExpired raw (elapsedTime size time s) (s.read size time)) ∨
    (elapsedTime size time s = 0 ∧ updated size raw time s = s.read size time) :=
  (updateCounters_cases size _ time s).imp And.right id

variable {size raw time s}

theorem updated_counters (u : ι) :
    (updated size raw time s).counters u = s.counters u - elapsedTime size time s := by
  rcases updated_cases size raw time s with ⟨-, heq⟩ | ⟨hzero, heq⟩ <;> rw [heq]
  · show (if s.counters u ≠ 0 ∧ s.counters u ≤ elapsedTime size time s then 0 else _) = _
    split
    · omega
    · rfl
  · rw [hzero]
    rfl

theorem updated_cooked (u : ι) :
    (updated size raw time s).cooked u =
      if s.counters u ≠ 0 ∧ s.counters u ≤ elapsedTime size time s then raw u else s.cooked u := by
  rcases updated_cases size raw time s with ⟨-, heq⟩ | ⟨hzero, heq⟩ <;> rw [heq]
  · rfl
  · rw [if_neg (by omega)]
    rfl

theorem updated_flag {u : ι} (hflag : s.counters u ≠ 0 → s.countersNeedUpdate = true)
    (hruns : (updated size raw time s).counters u ≠ 0) : (updated size raw time s).countersNeedUpdate = true := by
  rw [updated_counters] at hruns
  rcases updated_cases size raw time s with ⟨-, heq⟩ | ⟨-, heq⟩ <;> rw [heq]
  · exact decide_eq_true ⟨u, show elapsedTime size time s < s.counters u by omega⟩
  · exact hflag (by omega)

theorem updated_flag_of (hflag : (updated size raw time s).countersNeedUpdate = true) :
    s.countersNeedUpdate = true := by
  rcases updated_cases size raw time s with ⟨hon, -⟩ | ⟨-, heq⟩
  · exact hon
  · rw [heq] at hflag
    exact hflag

theorem updated_read : (updated size raw time s).lastTime = (s.read size time).lastTime ∧
    (updated size raw time s).matrixNeedUpdate = s.matrixNeedUpdate := by
  rcases updated_cases size raw time s with ⟨-, heq⟩ | ⟨-, heq⟩ <;> rw [heq] <;>
    exact ⟨rfl, rfl⟩

theorem updated_changed : (updated size raw time s).cookedChanged = true ↔
    (updated size raw time s).cooked ≠ s.cooked := by
  rcases updated_cases size raw time s with ⟨-, heq⟩ | ⟨-, heq⟩ <;> rw [heq]
  · show (false || decide _) = true ↔ _
    rw [Bool.false_or, decide_eq_true_iff, Function.ne_iff]
    refine exists_congr fun u => ?_
    show _ ↔ (if s.counters u ≠ 0 ∧ s.counters u ≤ elapsedTime size time s then raw u else s.cooked u) ≠ s.cooked u
    split
    · rename_i hexpired
      exact ⟨fun hne => hne.2.symm, fun hne => ⟨hexpired, hne.symm⟩⟩
    · rename_i hruns
      exact ⟨fun hne => absurd hne.1 hruns, fun hne => absurd rfl hne⟩
  · exact ⟨fun hfalse => absurd hfalse Bool.false_ne_true, fun hne => absurd rfl hne⟩

end Update

section Call

variable {debounce : Nat} {changed : Bool}

theorem debounceKeys_eq (hmatrix : s.matrixNeedUpdate = false) :
    debounceKeys size debounce time raw changed s =
      let s₁ := updated size raw time s
      let s₂ := if changed = true then
          startDebounceCounters debounce raw
            (if s.countersNeedUpdate = true then s₁ else { s₁ with lastTime := timerRead size time })
        else s₁
      (s₂.cookedChanged, s₂) := by
  have hfalse : (updated size raw time s).matrixNeedUpdate = false := updated_read.2.trans hmatrix
  rw [debounceKeys, debounceCounters_of size (show updateCounters size _ time s = updated size raw time s from rfl)]
  simp only [hfalse, Bool.false_eq_true, or_false]

theorem debounceKeys_cooked (hmatrix : s.matrixNeedUpdate = false) :
    (debounceKeys size debounce time raw changed s).2.cooked = (updated size raw time s).cooked ∧
      (debounceKeys size debounce time raw changed s).1 = (updated size raw time s).cookedChanged ∧
      (debounceKeys size debounce time raw changed s).2.matrixNeedUpdate = false := by
  have hfalse : (updated size raw time s).matrixNeedUpdate = false := updated_read.2.trans hmatrix
  rw [debounceKeys_eq hmatrix]
  cases changed <;> cases s.countersNeedUpdate <;> exact ⟨rfl, rfl, hfalse⟩

theorem debounceKeys_counters (hmatrix : s.matrixNeedUpdate = false) (u : ι) :
    (debounceKeys size debounce time raw changed s).2.counters u =
      if changed = true then
        if raw u ≠ (updated size raw time s).cooked u then
          if (updated size raw time s).counters u = 0 then debounce else (updated size raw time s).counters u
        else 0
      else (updated size raw time s).counters u := by
  rw [debounceKeys_eq hmatrix]
  cases changed <;> cases s.countersNeedUpdate <;> rfl

theorem debounceKeys_flagged (hmatrix : s.matrixNeedUpdate = false)
    (hflag : ∀ u, s.counters u ≠ 0 → s.countersNeedUpdate = true) (u : ι)
    (hruns : (debounceKeys size debounce time raw changed s).2.counters u ≠ 0) :
    (debounceKeys size debounce time raw changed s).2.countersNeedUpdate = true := by
  rw [debounceKeys_counters hmatrix] at hruns
  rw [debounceKeys_eq hmatrix]
  cases changed with
  | false => exact updated_flag (hflag u) hruns
  | true =>
    simp only [if_true] at hruns ⊢
    rw [startDebounceCounters, Bool.or_eq_true, decide_eq_true_iff]
    split at hruns
    · rename_i hdelta
      by_cases hzero : (updated size raw time s).counters u = 0
      · right
        exact ⟨u, by split <;> exact ⟨hdelta, hzero⟩⟩
      · left
        split <;> exact updated_flag (hflag u) hzero
    · exact absurd rfl hruns

theorem debounceKeys_clock (hmatrix : s.matrixNeedUpdate = false)
    (hon : (debounceKeys size debounce time raw changed s).2.countersNeedUpdate = true) :
    (debounceKeys size debounce time raw changed s).2.lastTime = timerRead size time := by
  have hread : s.countersNeedUpdate = true → (updated size raw time s).lastTime = timerRead size time := by
    intro hflag
    rw [updated_read.1, CounterState.read, if_pos hflag]
  rw [debounceKeys_eq hmatrix] at hon ⊢
  cases changed with
  | false => exact hread (updated_flag_of hon)
  | true =>
    by_cases hflag : s.countersNeedUpdate = true
    · simp only [hflag, if_true]
      exact hread hflag
    · simp only [hflag, if_true]
      rfl

end Call

/-! ### The invariant -/

/-- A key that differs from its cooked value has a counter that runs, with what is left of the debounce time. -/
structure Inv (size : TimerSize) (debounce : Nat) (h : List (Scan ι Bool)) (s : CounterState Nat ι Bool) : Prop where
  flagged : ∀ u, s.counters u ≠ 0 → s.countersNeedUpdate = true
  noMatrix : s.matrixNeedUpdate = false
  clock : Clocked size h s
  settled : ∀ u, lastRaw false h u = s.cooked u → s.counters u = 0
  pending : ∀ u, lastRaw false h u ≠ s.cooked u → s.counters u ≠ 0 ∧
    ∃ start, HeldSince (fun m : ι → Bool => m u) (lastRaw false h u) start h ∧
      ∃ y ∈ h.head?, s.counters u + (y.time - start) = debounce

variable {debounce : Nat}

omit [Fintype ι] in
theorem initial_inv : Inv size debounce [] (CounterState.initial 0 false : CounterState Nat ι Bool) where
  flagged _ hne := absurd rfl hne
  noMatrix := rfl
  clock hfalse := absurd hfalse Bool.false_ne_true
  settled _ _ := rfl
  pending _ hne := absurd rfl hne

theorem debounceKeys_key (hle : debounce ≤ uint8Max) (hpos : 0 < debounce) {x : Scan ι Bool}
    {h : List (Scan ι Bool)} (hordered : Ordered (x :: h)) (hs : Inv size debounce h s) (u : ι)
    (htimely : Waits (fun m => m u) x false h s.cooked → EndsOnTimer size (fun m => m u) debounce x h) :
    let s' := (debounceKeys size debounce x.time x.value (decide (x.value ≠ lastRaw false h)) s).2
    Defers (fun m : ι → Bool => m u) debounce x h s.cooked s'.cooked ∧
      (x.value u = s'.cooked u → s'.counters u = 0) ∧
      (x.value u ≠ s'.cooked u → s'.counters u ≠ 0 ∧
        ∃ start, HeldSince (fun m : ι → Bool => m u) (x.value u) start (x :: h) ∧
          s'.counters u + (x.time - start) = debounce) := by
  intro s'
  have hcooked : s'.cooked u = _ :=
    (congrFun (debounceKeys_cooked hs.noMatrix).1 u).trans (updated_cooked u)
  have hcounters : s'.counters u = _ := debounceKeys_counters hs.noMatrix u
  rw [← congrFun (debounceKeys_cooked hs.noMatrix).1 u, updated_counters] at hcounters
  change s'.counters u = if _ then if x.value u ≠ s'.cooked u then _ else 0 else _ at hcounters
  by_cases hsame : x.value u = lastRaw false h u
  · by_cases hsettled : lastRaw false h u = s.cooked u
    · -- Nothing is to be done for the key.
      have hzero := hs.settled u hsettled
      rw [hzero, if_neg (fun hrun => hrun.1 rfl), ← hsettled, ← hsame] at hcooked
      rw [hzero, Nat.zero_sub, hcooked, if_neg (not_not.mpr rfl), ite_self] at hcounters
      refine ⟨⟨fun _ => hcooked, fun _ => ?_⟩, fun _ => hcounters, fun hne => absurd hcooked.symm hne⟩
      exact (hcooked.trans hsame).trans hsettled
    · obtain ⟨hrun, start, hsince, y, hy, hleft⟩ := hs.pending u hsettled
      have hwaits := htimely ⟨hsame, hsettled⟩
      obtain ⟨h', rfl⟩ := List.head?_eq_some_iff.mp hy
      have hflag := hs.flagged u hrun
      have helapsed := elapsedTime_eq size hordered hs.clock hflag
      have hsince' := hsince.cons hordered hsame
      have hyx : y.time ≤ x.time := (List.pairwise_cons.mp hordered).1 y List.mem_cons_self
      have hstart : start ≤ y.time := hsince.le (List.pairwise_cons.mp hordered).2
      rw [← hsame] at hsince hsince' hsettled
      rcases Nat.lt_or_ge (elapsedTime size x.time s) (s.counters u) with hruns | hexpires
      · -- The counter goes on, and tells what is left.
        have hshort : x.time < start + debounce := by
          by_contra hend
          have hreach := hwaits start hsince (Nat.le_of_not_lt hend) y hy
          have hsat := le_saturate (show s.counters u ≤ (x.time - y.time) % size.range by omega) (by omega)
          omega
        have hgap : elapsedTime size x.time s = x.time - y.time := by
          have hrange := range_gt size
          rw [helapsed, Nat.mod_eq_of_lt (by omega), saturate, if_neg (by omega)]
        rw [if_neg (by omega)] at hcooked
        have hleft' : ¬ s.counters u - elapsedTime size x.time s = 0 := by omega
        rw [hcooked, if_pos hsettled, if_neg hleft', ite_self] at hcounters
        refine ⟨⟨fun hheld => ?_, fun _ => hcooked⟩, fun heq => absurd (heq.trans hcooked) hsettled, fun _ => ?_⟩
        · have hend := (heldFor_iff hsince').mp hheld
          omega
        · exact ⟨by omega, start, hsince', by omega⟩
      · -- The counter ends.
        have hend : start + debounce ≤ x.time := by
          have hmod := Nat.mod_le (x.time - y.time) size.range
          have hsat := saturate_le ((x.time - y.time) % size.range)
          omega
        rw [if_pos ⟨hrun, hexpires⟩] at hcooked
        rw [hcooked, if_neg (not_not.mpr rfl), Nat.sub_eq_zero_of_le hexpires, ite_self] at hcounters
        exact ⟨⟨fun _ => hcooked, fun hnot => absurd ((heldFor_iff hsince').mpr hend) hnot⟩, fun _ => hcounters,
          fun hne => absurd hcooked.symm hne⟩
  · have hchanged : decide (x.value ≠ lastRaw false h) = true :=
      decide_eq_true fun heq => hsame (congrFun heq u)
    rw [hchanged, if_pos rfl] at hcounters
    have hnot : ¬ HeldFor (fun m : ι → Bool => m u) (x.value u) debounce (x :: h) := not_heldFor_new hsame hpos
    by_cases hsettled : lastRaw false h u = s.cooked u
    · -- The key begins to differ.
      have hzero := hs.settled u hsettled
      rw [hzero, if_neg (fun hrun => hrun.1 rfl)] at hcooked
      have hdelta : x.value u ≠ s'.cooked u := by rwa [hcooked, ← hsettled]
      rw [if_pos hdelta, hzero, Nat.zero_sub, if_pos rfl] at hcounters
      refine ⟨⟨fun hheld => absurd hheld hnot, fun _ => hcooked⟩, fun heq => absurd heq hdelta, fun _ => ?_⟩
      exact ⟨by omega, x.time, heldSince_scan _ hsame, by omega⟩
    · -- It bounces back to its cooked value.
      have hback : x.value u = s.cooked u := by
        revert hsame hsettled
        cases x.value u <;> cases lastRaw false h u <;> cases s.cooked u <;> simp
      rw [← hback, ite_self] at hcooked
      rw [hcooked, if_neg (not_not.mpr rfl)] at hcounters
      exact ⟨⟨fun hheld => absurd hheld hnot, fun _ => hcooked.trans hback⟩, fun _ => hcounters,
        fun hne => absurd hcooked.symm hne⟩

theorem exact (hle : debounce ≤ uint8Max) (hpos : 0 < debounce) {scans : List (Scan ι Bool)}
    (hordered : Ordered scans)
    (htimely : Timely (fun (u : ι) m => m u) (fun unit => EndsOnTimer size unit debounce) (debounceKeys size debounce)
      CounterState.cooked false (.initial 0 false) scans) :
    DefersExactly (fun (u : ι) m => m u) debounce (debounceKeys size debounce) CounterState.cooked false
      (.initial 0 false) scans := by
  refine defersExactly_of (Inv size debounce) initial_inv ?_ hordered htimely
  intro x h s hx hs htimely
  have hkey := fun u => debounceKeys_key hle hpos hx hs u (htimely u)
  refine ⟨⟨?_, (debounceKeys_cooked hs.noMatrix).2.2, ?_, ?_, ?_⟩, fun u => (hkey u).1, ?_⟩
  · exact fun u => debounceKeys_flagged hs.noMatrix hs.flagged u
  · exact fun hon => ⟨x, rfl, debounceKeys_clock hs.noMatrix hon⟩
  · exact fun u => (hkey u).2.1
  · intro u hne
    obtain ⟨hrun, start, hsince, hleft⟩ := (hkey u).2.2 hne
    exact ⟨hrun, start, hsince, x, rfl, hleft⟩
  · rw [(debounceKeys_cooked hs.noMatrix).1, (debounceKeys_cooked hs.noMatrix).2.1]
    exact updated_changed

end SymDeferPk

/-! ## sym_defer_pr.c -/

namespace SymDeferPr

variable [Fintype ι] [DecidableEq V] {off : V} {d ms time : Nat}

/-- A row that differs from its cooked value counts down what is left of the debounce time. -/
structure Inv (off : V) (ms : Nat) (h : List (Scan ι V)) (s : State ι V) : Prop where
  tracks : s.lastRaw = lastRaw off h
  clock : ∀ y ∈ h.head?, s.lastTime = timerRead .bits16 y.time
  pending : ∀ row, lastRaw off h row ≠ s.cooked row → s.countdowns row ≠ 0 ∧
    ∃ start, HeldSince (fun m : ι → V => m row) (lastRaw off h row) start h ∧
      ∃ y ∈ h.head?, s.countdowns row + (y.time - start) = ms

omit [Fintype ι] in
theorem initial_inv : Inv off ms [] (State.initial time off : State ι V) where
  tracks := rfl
  clock _ hy := nomatch hy
  pending _ hne := absurd rfl hne

theorem debounce_row (hms : d % 256 = ms) (hle : ms ≤ uint8Max) (hpos : 0 < ms) {x : Scan ι V}
    {h : List (Scan ι V)} (hordered : Ordered (x :: h)) {s : State ι V} (hs : Inv off ms h s) (row : ι)
    (changed : Bool)
    (htimely : Waits (fun m => m row) x off h s.cooked → EndsOnTimer .bits16 (fun m => m row) ms x h) :
    let s' := (debounce d x.time x.value changed s).2
    Defers (fun m : ι → V => m row) ms x h s.cooked s'.cooked ∧
      (x.value row ≠ s'.cooked row → s'.countdowns row ≠ 0 ∧
        ∃ start, HeldSince (fun m : ι → V => m row) (x.value row) start (x :: h) ∧
          s'.countdowns row + (x.time - start) = ms) := by
  intro s'
  have hcooked : s'.cooked row = if x.value row = s.lastRaw row ∧
      s.countdowns row ≤ saturate (timerDiff .bits16 (timerRead .bits16 x.time) s.lastTime) ∧
        s.countdowns row ≠ 0 then x.value row else s.cooked row := rfl
  have hcountdown : s'.countdowns row = if x.value row ≠ s.lastRaw row then d % 256
    else if s.countdowns row > saturate (timerDiff .bits16 (timerRead .bits16 x.time) s.lastTime) then
      s.countdowns row - saturate (timerDiff .bits16 (timerRead .bits16 x.time) s.lastTime)
    else 0 := rfl
  rw [hs.tracks] at hcooked hcountdown
  by_cases hsame : x.value row = lastRaw off h row
  · rw [if_neg (not_not.mpr hsame)] at hcountdown
    by_cases hsettled : lastRaw off h row = s.cooked row
    · rw [hsame, hsettled, ite_self] at hcooked
      refine ⟨⟨fun _ => ?_, fun _ => hcooked⟩, fun hne => absurd ?_ hne⟩
      · exact hcooked.trans (hsettled.symm.trans hsame.symm)
      · rw [hcooked, hsame, hsettled]
    · obtain ⟨hrun, start, hsince, y, hy, hleft⟩ := hs.pending row hsettled
      have hwaits := htimely ⟨hsame, hsettled⟩
      have hclock := hs.clock y hy
      obtain ⟨h', rfl⟩ := List.head?_eq_some_iff.mp hy
      have hsince' := hsince.cons hordered hsame
      have hyx : y.time ≤ x.time := (List.pairwise_cons.mp hordered).1 y List.mem_cons_self
      have hstart : start ≤ y.time := hsince.le (List.pairwise_cons.mp hordered).2
      rw [← hsame] at hsince hsince' hsettled
      rw [hclock, timerDiff_read _ hyx] at hcooked hcountdown
      have hrange := range_gt .bits16
      have hsat := saturate_le ((x.time - y.time) % TimerSize.bits16.range)
      rcases Nat.lt_or_ge (saturate ((x.time - y.time) % TimerSize.bits16.range)) (s.countdowns row)
        with hruns | hexpires
      · have hshort : x.time < start + ms := by
          by_contra hend
          have hreach := hwaits start hsince (Nat.le_of_not_lt hend) y hy
          have hsat' := le_saturate (show s.countdowns row ≤ (x.time - y.time) % TimerSize.bits16.range by omega)
            (by omega)
          omega
        have hgap : saturate ((x.time - y.time) % TimerSize.bits16.range) = x.time - y.time := by
          rw [Nat.mod_eq_of_lt (by omega), saturate, if_neg (by omega)]
        rw [if_neg (by omega)] at hcooked
        rw [if_pos hruns] at hcountdown
        refine ⟨⟨fun hheld => ?_, fun _ => hcooked⟩, fun _ => ⟨by omega, start, hsince', by omega⟩⟩
        have hend := (heldFor_iff hsince').mp hheld
        omega
      · have hend : start + ms ≤ x.time := by
          have hmod := Nat.mod_le (x.time - y.time) TimerSize.bits16.range
          omega
        rw [if_pos ⟨hsame, hexpires, hrun⟩] at hcooked
        exact ⟨⟨fun _ => hcooked, fun hnot => absurd ((heldFor_iff hsince').mpr hend) hnot⟩,
          fun hne => absurd hcooked.symm hne⟩
  · rw [if_neg (fun hexpires => hsame hexpires.1)] at hcooked
    rw [if_pos hsame, hms] at hcountdown
    refine ⟨⟨fun hheld => absurd hheld (not_heldFor_new hsame hpos), fun _ => hcooked⟩, fun _ => ?_⟩
    exact ⟨by omega, x.time, heldSince_scan _ hsame, by omega⟩

theorem debounce_returned (d time : Nat) (raw : ι → V) (changed : Bool) (s : State ι V) :
    (debounce d time raw changed s).1 = true ↔ (debounce d time raw changed s).2.cooked ≠ s.cooked := by
  rw [Function.ne_iff]
  refine decide_eq_true_iff.trans (exists_congr fun row => ?_)
  show _ ↔ (if _ then raw row else s.cooked row) ≠ s.cooked row
  split
  · rename_i hexpires
    exact ⟨fun hne => hne.2.symm, fun hne => ⟨hexpires, hne.symm⟩⟩
  · rename_i hruns
    exact ⟨fun hne => absurd hne.1 hruns, fun hne => absurd rfl hne⟩

theorem exact (hms : d % 256 = ms) (hle : ms ≤ uint8Max) (hpos : 0 < ms) {scans : List (Scan ι V)}
    (hordered : Ordered scans)
    (htimely : Timely (fun (row : ι) m => m row) (fun unit => EndsOnTimer .bits16 unit ms) (debounce d)
      State.cooked off (.initial time off) scans) :
    DefersExactly (fun (row : ι) m => m row) ms (debounce d) State.cooked off (.initial time off) scans := by
  refine defersExactly_of (Inv off ms) initial_inv ?_ hordered htimely
  intro x h s hx hs htimely
  have hrow := fun row => debounce_row hms hle hpos hx hs row (decide (x.value ≠ lastRaw off h)) (htimely row)
  refine ⟨⟨rfl, ?_, ?_⟩, fun row => (hrow row).1, debounce_returned d x.time x.value _ s⟩
  · rintro y ⟨⟩
    rfl
  · intro row hne
    obtain ⟨hrun, start, hsince, hleft⟩ := (hrow row).2 hne
    exact ⟨hrun, start, hsince, x, rfl, hleft⟩

end SymDeferPr

/-! ## sym_defer_g.c -/

namespace SymDeferG

variable [Fintype ι] [DecidableEq V] {size : TimerSize} {off : V} {ms : Nat}

/-- While the matrix differs from the cooked one, its last change is on the timer. -/
def Inv (size : TimerSize) (off : V) (h : List (Scan ι V)) (s : State ι V) : Prop :=
  lastRaw off h ≠ s.cooked → s.debouncing = true ∧ ∃ start, HeldSince id (lastRaw off h) start h ∧
    s.debouncingTime = timerRead size start

theorem debounceMatrix_spec (hpos : 0 < ms) {x : Scan ι V} {h : List (Scan ι V)} (hordered : Ordered (x :: h))
    {s : State ι V} (hs : Inv size off h s)
    (htimely : Waits id x off h s.cooked → EndsOnTimerSince size id ms x h) :
    let r := debounceMatrix size ms x.time x.value (decide (x.value ≠ lastRaw off h)) s
    Inv size off (x :: h) r.2 ∧ Defers id ms x h s.cooked r.2.cooked ∧ (r.1 = true ↔ r.2.cooked ≠ s.cooked) := by
  intro r
  by_cases hsame : x.value = lastRaw off h
  · have hr : r = if s.debouncing = true ∧ timerDiff size (timerRead size x.time) s.debouncingTime ≥ ms then
        if s.cooked ≠ x.value then (true, { s with cooked := x.value, debouncing := false })
        else (false, { s with debouncing := false }) else (false, s) :=
      if_neg fun hchanged => absurd hsame (of_decide_eq_true hchanged)
    by_cases hsettled : x.value = s.cooked
    · have hcooked : r.2.cooked = s.cooked ∧ r.1 = false := by
        rw [hr, if_neg (not_not.mpr hsettled.symm)]
        split <;> exact ⟨rfl, rfl⟩
      refine ⟨fun hne => absurd (hsettled.trans hcooked.1.symm) hne,
        ⟨fun _ => hcooked.1.trans hsettled.symm, fun _ => hcooked.1⟩, ?_⟩
      rw [hcooked.1, hcooked.2]
      exact ⟨fun hfalse => absurd hfalse Bool.false_ne_true, fun hne => absurd rfl hne⟩
    · rw [hsame] at hsettled
      obtain ⟨hon, start, hsince, hstart⟩ := hs hsettled
      have hwaits := htimely ⟨hsame, hsettled⟩
      have hsince' := hsince.cons hordered hsame
      have hle : start ≤ x.time := hsince'.le hordered
      rw [← hsame] at hsince hsince' hsettled
      rw [hstart, timerDiff_read size hle] at hr
      by_cases hend : (x.time - start) % size.range ≥ ms
      · rw [if_pos ⟨hon, hend⟩, if_pos (Ne.symm hsettled)] at hr
        have hmod := Nat.mod_le (x.time - start) size.range
        rw [hr]
        refine ⟨fun hne => absurd rfl hne, ⟨fun _ => rfl, fun hnot => absurd ?_ hnot⟩, fun _ => hsettled, fun _ => rfl⟩
        exact (heldFor_iff hsince').mpr (by omega)
      · rw [if_neg fun hboth => hend hboth.2] at hr
        rw [hr]
        refine ⟨fun _ => ⟨hon, start, hsince', hstart⟩, ⟨fun hheld => absurd ?_ hend, fun _ => rfl⟩, ?_⟩
        · exact hwaits start hsince ((heldFor_iff hsince').mp hheld)
        · exact ⟨fun hfalse => absurd hfalse Bool.false_ne_true, fun hne => absurd rfl hne⟩
  · have hr : r = (false, { s with debouncing := true, debouncingTime := timerRead size x.time }) :=
      if_pos (decide_eq_true hsame)
    rw [hr]
    refine ⟨fun _ => ⟨rfl, x.time, heldSince_scan id hsame, rfl⟩,
      ⟨fun hheld => absurd hheld (not_heldFor_new hsame hpos), fun _ => rfl⟩, ?_⟩
    exact ⟨fun hfalse => absurd hfalse Bool.false_ne_true, fun hne => absurd rfl hne⟩

theorem exact (hpos : 0 < ms) {scans : List (Scan ι V)} (hordered : Ordered scans)
    (htimely : Timely (fun (_ : Unit) m => m) (fun unit => EndsOnTimerSince size unit ms) (debounceMatrix size ms)
      State.cooked off (.initial off) scans) :
    DefersExactly (fun (_ : Unit) m => m) ms (debounceMatrix size ms) State.cooked off (.initial off) scans := by
  refine defersExactly_of (Inv size off) (fun hne => absurd rfl hne) ?_ hordered htimely
  intro x h s hx hs htimely
  obtain ⟨hinv, hdefers, hreturned⟩ := debounceMatrix_spec hpos hx hs (htimely ())
  exact ⟨hinv, fun _ => hdefers, hreturned⟩

end SymDeferG

/-! ## Every debounce time -/

section Exact

variable [Fintype ι] [DecidableEq V] {off : V} {d : Nat} {size : TimerSize}

theorem SymDeferPk.debounce_exact {scans : List (Scan ι Bool)} (hordered : Ordered scans)
    (htimely : Timely (fun (u : ι) m => m u) (fun unit => EndsOnTimer size unit (maximumDebounce d))
      (SymDeferPk.debounce size d) CounterState.cooked false (.initial 0 false) scans) :
    DefersExactly (fun (u : ι) m => m u) (maximumDebounce d) (SymDeferPk.debounce size d) CounterState.cooked false
      (.initial 0 false) scans := by
  by_cases hpos : maximumDebounce d > 0
  · have hkeys : SymDeferPk.debounce (ι := ι) (V := Bool) size d =
        SymDeferPk.debounceKeys size (maximumDebounce d) := by
      funext time raw changed s
      exact if_pos hpos
    rw [hkeys] at htimely ⊢
    exact SymDeferPk.exact (maximumDebounce_le d) hpos hordered htimely
  · rw [Nat.eq_zero_of_not_pos hpos] at htimely ⊢
    refine none_exact rfl (fun time raw changed s => ?_) hordered htimely
    rw [SymDeferPk.debounce, if_neg hpos]
    exact ⟨rfl, rfl⟩

theorem SymDeferG.debounce_exact {scans : List (Scan ι V)} (hordered : Ordered scans)
    (htimely : Timely (fun (_ : Unit) m => m) (fun unit => EndsOnTimerSince size unit (maximumDebounce d))
      (SymDeferG.debounce size d) SymDeferG.State.cooked off (.initial off) scans) :
    DefersExactly (fun (_ : Unit) m => m) (maximumDebounce d) (SymDeferG.debounce size d) SymDeferG.State.cooked off
      (.initial off) scans := by
  by_cases hpos : maximumDebounce d > 0
  · have hmatrix : SymDeferG.debounce size d = SymDeferG.debounceMatrix (ι := ι) (V := V) size (maximumDebounce d) := by
      funext time raw changed s
      exact if_pos hpos
    rw [hmatrix] at htimely ⊢
    exact SymDeferG.exact hpos hordered htimely
  · rw [Nat.eq_zero_of_not_pos hpos] at htimely ⊢
    refine none_exact rfl (fun time raw changed s => ?_) hordered htimely
    rw [SymDeferG.debounce, if_neg hpos]
    exact ⟨rfl, rfl⟩

end Exact

/-- Each algorithm defers exactly, with the debounce time cut off at `UINT8_MAX`, in every run whose waits end
on the timer when they end. For `sym_defer_pr.c` its countdown has to start at that time, and not at zero. -/
theorem deferred_debounce_exact (rows cols d : Nat) (size : TimerSize) :
    (∀ scans : List (Scan (Keys rows cols) Bool), Ordered scans →
      Timely (fun key m => m key) (fun unit => EndsOnTimer size unit (maximumDebounce d))
        (SymDeferPk.debounce size d) CounterState.cooked false (.initial 0 false) scans →
      DefersExactly (fun key m => m key) (maximumDebounce d) (SymDeferPk.debounce size d) CounterState.cooked false
        (.initial 0 false) scans) ∧
    (∀ (time : Nat) (scans : List (Scan (Fin rows) (Fin cols → Bool))),
      d % 256 = maximumDebounce d → d ≠ 0 → Ordered scans →
      Timely (fun row m => m row) (fun unit => EndsOnTimer .bits16 unit (maximumDebounce d))
        (SymDeferPr.debounce d) SymDeferPr.State.cooked (fun _ => false) (.initial time fun _ => false) scans →
      DefersExactly (fun row m => m row) (maximumDebounce d) (SymDeferPr.debounce d) SymDeferPr.State.cooked
        (fun _ => false) (.initial time fun _ => false) scans) ∧
    (∀ scans : List (Scan (Keys rows cols) Bool), Ordered scans →
      Timely (fun (_ : Unit) m => m) (fun unit => EndsOnTimerSince size unit (maximumDebounce d))
        (SymDeferG.debounce size d) SymDeferG.State.cooked false (.initial false) scans →
      DefersExactly (fun (_ : Unit) m => m) (maximumDebounce d) (SymDeferG.debounce size d) SymDeferG.State.cooked
        false (.initial false) scans) := by
  refine ⟨fun scans => SymDeferPk.debounce_exact, fun time scans hfits hne => ?_,
    fun scans => SymDeferG.debounce_exact⟩
  refine SymDeferPr.exact hfits (maximumDebounce_le d) ?_
  rw [maximumDebounce]
  split
  · decide
  · omega

/-- A key that is pressed for the debounce time, with the default `DEBOUNCE`. -/
theorem deferred_debounce_five :
    let scans : List (Scan (Keys 1 1) Bool) := [⟨6, fun _ => true⟩, ⟨1, fun _ => true⟩]
    let rows : List (Scan (Fin 1) (Fin 1 → Bool)) := [⟨6, fun _ _ => true⟩, ⟨1, fun _ _ => true⟩]
    DefersExactly (fun key m => m key) 5 (SymDeferPk.debounce .bits16 5) CounterState.cooked false
        (.initial 0 false) scans ∧
      DefersExactly (fun row m => m row) 5 (SymDeferPr.debounce 5) SymDeferPr.State.cooked (fun _ => false)
        (.initial 0 fun _ => false) rows ∧
      DefersExactly (fun (_ : Unit) m => m) 5 (SymDeferG.debounce .bits16 5) SymDeferG.State.cooked false
        (.initial false) scans := by
  obtain ⟨hpk, hpr, hg⟩ := deferred_debounce_exact 1 1 5 .bits16
  refine ⟨hpk _ ?_ (timely_of_lt_range ?_ ?_).1, hpr 0 _ rfl (by decide) ?_ (timely_of_lt_range ?_ ?_).1,
    hg _ ?_ (timely_of_lt_range ?_ ?_).2⟩ <;>
    simp [Ordered, TimerSize.range]

/-- Without a debounce time the countdown of a row never starts, and the row is never copied. -/
theorem sym_defer_pr_zero :
    let scans : List (Scan (Fin 1) (Fin 1 → Bool)) := [⟨0, fun _ _ => true⟩]
    Ordered scans ∧ ¬ DefersExactly (fun row m => m row) (maximumDebounce 0) (SymDeferPr.debounce 0)
      SymDeferPr.State.cooked (fun _ => false) (.initial 0 fun _ => false) scans := by
  refine ⟨List.pairwise_singleton _ _, fun hexact => ?_⟩
  have hcopied := ((hexact _ [] (List.suffix_refl _)).1 0).1 (heldFor_zero _ _ [])
  exact absurd (congrFun hcopied 0) (by decide)

end Debounce
end VialQmk
