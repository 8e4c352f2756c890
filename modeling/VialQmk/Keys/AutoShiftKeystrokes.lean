import VialQmk.Keys.AutoShift

/-!
# Keys.AutoShiftKeystrokes

What becomes of the presses that Auto Shift consumes, from the log of its calls.

* `KeyLedger`: for each keycode, how often it was consumed, registered, unregistered and released.
* `Typing.Inv`: the pending key is held, and its shifts are owed to it.
* `auto_shift_keystrokes`: behind its release, each press that was consumed has been registered once, and no keycode
  is left registered.
-/

namespace VialQmk
namespace Keys

open Hid

structure KeyLedger where
  consumed : Nat → Nat
  registered : Nat → Nat
  unregistered : Nat → Nat
  released : Nat → Nat
  /-- The newest entry about the keycode registers it. -/
  down : Nat → Bool

namespace KeyLedger

variable (l : KeyLedger)

def empty : KeyLedger := ⟨fun _ => 0, fun _ => 0, fun _ => 0, fun _ => 0, fun _ => false⟩

def more (count : Nat → Nat) (k : Nat) : Nat → Nat := Function.update count k (count k + 1)

/-- A release that is passed on takes the keycode up as any other key's. -/
def enter : AutoShiftEvent → KeyLedger
  | .consumed k => { l with consumed := more l.consumed k }
  | .registered k _ => { l with registered := more l.registered k, down := Function.update l.down k true }
  | .unregistered k => { l with unregistered := more l.unregistered k, down := Function.update l.down k false }
  | .released k passed =>
    { l with
      released := more l.released k
      down := if passed then Function.update l.down k false else l.down }
  | .cancelled _ | .restored _ => l

end KeyLedger

def keyLedger : List AutoShiftEvent → KeyLedger
  | [] => .empty
  | event :: log => (keyLedger log).enter event

/-- A shift that was cancelled and has been neither restored nor released since. -/
def owed (side : ShiftSide) : List AutoShiftEvent → Bool
  | [] => false
  | .cancelled side' :: log => side' = side || owed side log
  | .restored side' :: log => side' ≠ side && owed side log
  | .released k _ :: log => k ≠ side.keycode && owed side log
  | .consumed _ :: log | .registered _ _ :: log | .unregistered _ :: log => owed side log

/-- The key of the last press that was put off is not evaluated yet. -/
def AutoShift.Pending (s : AutoShift) (k : Nat) : Prop := s.inProgress = true ∧ s.lastkey = k
deriving Decidable

namespace Typing

variable (t : Typing)

/-- A press is registered once and unregistered once, and with no auto-shifted key held no shift is missing. -/
def NoKeystrokeLost : Prop :=
  (∀ k, k ∉ t.held → (keyLedger t.auto.log).registered k = (keyLedger t.auto.log).consumed k ∧
    (keyLedger t.auto.log).unregistered k = (keyLedger t.auto.log).consumed k) ∧
    (t.held = [] → ∀ side, owed side t.auto.log = false)

structure Keystrokes : Prop where
  /-- Each consumed press is registered once, or pending yet. -/
  registered : ∀ k, (keyLedger t.auto.log).consumed k =
    (keyLedger t.auto.log).registered k + if t.auto.Pending k then 1 else 0
  /-- Behind the release nothing is pending, and the keycode is unregistered behind its last registration. -/
  finished : ∀ k, k ∉ t.held → ¬ t.auto.Pending k ∧ (keyLedger t.auto.log).down k = false
  /-- Beyond one for each registration, a keycode is unregistered at its releases only. -/
  unregistered : ∀ k, (keyLedger t.auto.log).unregistered k ≤
    (keyLedger t.auto.log).registered k + (keyLedger t.auto.log).released k
  /-- A shift is missing only for the last auto-shifted key, or where another key came behind that. -/
  shifts : ∀ side, owed side t.auto.log = true → t.auto.lastkey = kcNo ∨ t.auto.lastkey ∈ t.held

/-- A call of the settings leaves Auto Shift on for the keys that it has consumed, and while a shift is missing. -/
def KeepsShifting (cfg : TypingConfig) : TypingAction → Prop
  | .settings call =>
    (∀ k ∈ t.held, qsAutoShiftEnable (t.auto.settingsCall cfg call).settings = true ∧
      getAutoShiftedKey (t.auto.settingsCall cfg call).settings k = true) ∧
    ((t.auto.cancelling .left = true ∨ t.auto.cancelling .right = true) →
      qsAutoShiftEnable (t.auto.settingsCall cfg call).settings = true)
  | _ => True

end Typing

/-- What the keys, the scans and the settings make of the start. -/
inductive TypingRun (cfg : TypingConfig) : Typing → Prop where
  | start (settings : SettingsState) : TypingRun cfg (.start cfg settings)
  | step {t : Typing} {a : TypingAction} : TypingRun cfg t → t.KeepsShifting cfg a → TypingRun cfg (t.step cfg a)

namespace KeyLedger

/-- The ledger agrees with the pending key and the keys that are held. -/
structure Accounts (l : KeyLedger) (pending : Option Nat) (held : List Nat) : Prop where
  registered : ∀ k, l.consumed k = l.registered k + if pending = some k then 1 else 0
  unregistered : ∀ k, l.unregistered k ≤ l.registered k + l.released k
  down : ∀ k, l.down k = true → k ∈ held

theorem more_apply (count : Nat → Nat) (k x : Nat) : more count k x = count x + if x = k then 1 else 0 := by
  rw [more, Function.update_apply]
  split_ifs with h
  · rw [h]
  · rfl

namespace Accounts

variable {l : KeyLedger} {pending : Option Nat} {held : List Nat} {k : Nat}

theorem empty : Accounts .empty none [] where
  registered _ := rfl
  unregistered _ := Nat.le_refl _
  down _ h := absurd h Bool.false_ne_true

theorem evaluate (h : l.Accounts (some k) held) (hk : k ∈ held) (shifted : Bool) :
    (l.enter (.registered k shifted)).Accounts none held where
  registered x := by
    have hx := h.registered x
    simp only [enter, more_apply, reduceCtorEq, if_false, Option.some.injEq, eq_comm (a := k)] at hx ⊢
    exact hx
  unregistered x := by
    have hx := h.unregistered x
    simp only [enter, more_apply]
    omega
  down x hx := by
    simp only [enter, Function.update_apply] at hx
    split_ifs at hx with heq
    · exact heq ▸ hk
    · exact h.down x hx

theorem tap (h : l.Accounts (some k) held) (shifted : Bool) :
    ((l.enter (.registered k shifted)).enter (.unregistered k)).Accounts none held where
  registered x := by
    have hx := h.registered x
    simp only [enter, more_apply, reduceCtorEq, if_false, Option.some.injEq, eq_comm (a := k)] at hx ⊢
    exact hx
  unregistered x := by
    have hx := h.unregistered x
    simp only [enter, more_apply]
    split_ifs <;> omega
  down x hx := by
    simp only [enter, Function.update_apply] at hx
    split_ifs at hx
    exact h.down x hx

theorem erase_of_up (hdown : ∀ x, l.down x = true → x ∈ held) (hup : l.down k = false) :
    ∀ x, l.down x = true → x ∈ held.erase k := by
  intro x hx
  have hne : x ≠ k := by
    rintro rfl
    cases hx.symm.trans hup
  exact (List.mem_erase_of_ne hne).mpr (hdown x hx)

theorem release (h : l.Accounts pending held) {passed : Bool} (hup : passed = true ∨ l.down k = false) :
    (l.enter (.released k passed)).Accounts pending (held.erase k) where
  registered x := h.registered x
  unregistered x := by
    have hx := h.unregistered x
    simp only [enter, more_apply]
    omega
  down := by
    refine erase_of_up (fun x hx => ?_) ?_
    · cases passed with
      | false => exact h.down x hx
      | true =>
        simp only [enter, if_true, Function.update_apply] at hx
        split_ifs at hx
        exact h.down x hx
    · cases passed with
      | false => exact hup.resolve_left Bool.false_ne_true
      | true => exact Function.update_self k false l.down

theorem releasePassed (h : l.Accounts pending held) (k : Nat) :
    (l.enter (.released k true)).Accounts pending (held.erase k) := h.release (.inl rfl)

theorem unregisterReleased (h : l.Accounts pending held) :
    ((l.enter (.unregistered k)).enter (.released k false)).Accounts pending (held.erase k) where
  registered x := h.registered x
  unregistered x := by
    have hx := h.unregistered x
    simp only [enter, more_apply]
    split_ifs <;> omega
  down := by
    have hup : ((l.enter (.unregistered k)).enter (.released k false)).down k = false :=
      Function.update_self (β := fun _ => Bool) k false l.down
    refine erase_of_up (fun x hx => ?_) hup
    simp only [enter, Bool.false_eq_true, if_false, Function.update_apply] at hx
    split_ifs at hx
    exact h.down x hx

theorem consume (h : l.Accounts none held) : (l.enter (.consumed k)).Accounts (some k) (k :: held) where
  registered x := by
    have hx := h.registered x
    simp only [enter, more_apply, reduceCtorEq, if_false, Option.some.injEq, eq_comm (a := k)] at hx ⊢
    omega
  unregistered := h.unregistered
  down x hx := List.mem_cons_of_mem k (h.down x hx)

theorem consumeRegistered (h : l.Accounts none held) (shifted : Bool) :
    ((l.enter (.registered k shifted)).enter (.consumed k)).Accounts none (k :: held) where
  registered x := by
    have hx := h.registered x
    simp only [enter, more_apply, reduceCtorEq, if_false] at hx ⊢
    omega
  unregistered x := by
    have hx := h.unregistered x
    simp only [enter, more_apply]
    omega
  down x hx := by
    simp only [enter, Function.update_apply] at hx
    split_ifs at hx with heq
    · exact heq ▸ List.mem_cons_self
    · exact List.mem_cons_of_mem k (h.down x hx)

end Accounts

end KeyLedger

namespace AutoShift

section Shifts

variable {s s' s'' : AutoShift}

/-- The log and the flags agree about the shifts that are missing. -/
def Owes (s : AutoShift) : Prop := ∀ side, owed side s.log = s.cancelling side

structure SameKeys (s s' : AutoShift) : Prop where
  settings : s'.settings = s.settings
  enabled : s'.enabled = s.enabled
  lastkey : s'.lastkey = s.lastkey
  lastshifted : s'.lastshifted = s.lastshifted
  inProgress : s'.inProgress = s.inProgress
  ledger : keyLedger s'.log = keyLedger s.log
  owes : s.Owes → s'.Owes

theorem SameKeys.refl (s : AutoShift) : SameKeys s s := ⟨rfl, rfl, rfl, rfl, rfl, rfl, id⟩

theorem SameKeys.trans (h : SameKeys s s') (h' : SameKeys s' s'') : SameKeys s s'' :=
  ⟨h'.settings.trans h.settings, h'.enabled.trans h.enabled, h'.lastkey.trans h.lastkey,
    h'.lastshifted.trans h.lastshifted, h'.inProgress.trans h.inProgress, h'.ledger.trans h.ledger, h'.owes ∘ h.owes⟩

theorem sameKeys_cancelShift (s : AutoShift) (side : ShiftSide) : SameKeys s (s.cancelShift side) := by
  unfold cancelShift
  split
  · refine ⟨rfl, rfl, rfl, rfl, rfl, rfl, fun howes x => ?_⟩
    have hx := howes x
    simp only [owed, Function.update_apply, hx]
    by_cases heq : side = x
    · simp [heq]
    · simp [heq, Ne.symm heq]
  · exact .refl s

theorem sameKeys_restoreShift (s : AutoShift) (side : ShiftSide) : SameKeys s (s.restoreShift side) := by
  unfold restoreShift
  split
  · refine ⟨rfl, rfl, rfl, rfl, rfl, rfl, fun howes x => ?_⟩
    have hx := howes x
    simp only [owed, Function.update_apply, hx]
    by_cases heq : side = x
    · simp [heq]
    · simp [heq, Ne.symm heq]
  · exact .refl s

theorem cancelling_restoreShift (s : AutoShift) (side x : ShiftSide) :
    (s.restoreShift side).cancelling x = if x = side then false else s.cancelling x := by
  unfold restoreShift
  split
  · exact Function.update_apply s.cancelling side false x
  · rename_i hnot
    split_ifs with heq
    · rw [heq]
      exact Bool.not_eq_true _ ▸ hnot
    · rfl

theorem sameKeys_flushShift (s : AutoShift) : SameKeys s s.flushShift := by
  have hweak : SameKeys s { s with
      weakMods := if s.capsWordOn then s.weakMods else s.weakMods &&& ~~~ShiftSide.left.modBit } :=
    ⟨rfl, rfl, rfl, rfl, rfl, rfl, id⟩
  exact (hweak.trans (sameKeys_restoreShift _ .left)).trans (sameKeys_restoreShift _ .right)

theorem cancelling_flushShift (s : AutoShift) (side : ShiftSide) : s.flushShift.cancelling side = false := by
  unfold flushShift
  rw [cancelling_restoreShift, cancelling_restoreShift]
  cases side with
  | left => rfl
  | right => rfl

theorem sameKeys_cancelShifts (s : AutoShift) : SameKeys s ((s.cancelShift .left).cancelShift .right) :=
  (sameKeys_cancelShift s .left).trans (sameKeys_cancelShift _ .right)

theorem Owes.released {k : Nat} (h : s.Owes) (hk : ∀ side : ShiftSide, k ≠ side.keycode) (passed : Bool) :
    (s.logged (.released k passed)).Owes := by
  intro side
  have hside := h side
  simp only [logged, owed, hk side, ne_eq, not_false_eq_true, decide_true, Bool.true_and]
  exact hside

theorem Owes.released_of_none {k : Nat} (h : s.Owes) (hnone : ∀ side, s.cancelling side = false) (passed : Bool) :
    (s.logged (.released k passed)).Owes := by
  intro side
  have hside := (h side).trans (hnone side)
  simp only [logged, owed, hside, Bool.and_false, hnone side]

theorem Owes.releaseShift (h : s.Owes) (side : ShiftSide) (passed : Bool) :
    ((s.releaseShift side).logged (.released side.keycode passed)).Owes := by
  intro x
  have hx := h x
  simp only [logged, AutoShift.releaseShift, owed, hx, Function.update_apply]
  cases side <;> cases x <;> simp [ShiftSide.keycode]

end Shifts

section Inv

variable {s : AutoShift} {held : List Nat} {k : Nat} {now : UInt16}

def pendingKey (s : AutoShift) : Option Nat := if s.inProgress then some s.lastkey else none

def Shifts (s : AutoShift) (k : Nat) : Prop :=
  qsAutoShiftEnable s.settings = true ∧ getAutoShiftedKey s.settings k = true

structure Inv (s : AutoShift) (held : List Nat) : Prop where
  accounts : (keyLedger s.log).Accounts s.pendingKey held
  pending : s.inProgress = true → s.lastkey ∈ held ∧ s.enabled = true
  shifts : ∀ k ∈ held, s.Shifts k
  owes : s.Owes
  cancelling : ∀ side, s.cancelling side = true →
    qsAutoShiftEnable s.settings = true ∧ s.enabled = true ∧ (s.lastkey = kcNo ∨ s.lastkey ∈ held)

theorem getAutoShiftedKey_range {settings : SettingsState} (h : getAutoShiftedKey settings k = true) :
    0x04 ≤ k ∧ k ≤ 0x64 := by
  unfold getAutoShiftedKey at h
  split_ifs at h <;> omega

theorem Shifts.ne_kcNo (h : s.Shifts k) : k ≠ kcNo := by
  have hrange := getAutoShiftedKey_range h.2
  unfold kcNo
  omega

theorem Shifts.ne_shift (h : s.Shifts k) (side : ShiftSide) : k ≠ side.keycode := by
  have hrange := getAutoShiftedKey_range h.2
  cases side <;> simp only [ShiftSide.keycode] <;> omega

theorem Shifts.not_retro (h : s.Shifts k) : isRetro k = false := by
  have hrange := getAutoShiftedKey_range h.2
  have hlt : ¬ 0x2000 ≤ k := by omega
  simp only [isRetro, hlt, decide_false, Bool.false_and]

theorem pendingKey_of_not (h : s.inProgress = false) : s.pendingKey = none := by
  rw [pendingKey, h]
  rfl

theorem pendingKey_of (h : s.inProgress = true) : s.pendingKey = some s.lastkey := by
  rw [pendingKey, h]
  rfl

theorem SameKeys.pendingKey {s' : AutoShift} (h : SameKeys s s') : s'.pendingKey = s.pendingKey := by
  rw [AutoShift.pendingKey, AutoShift.pendingKey, h.inProgress, h.lastkey]

/-- What an evaluation changes: the key is registered, and pends no more. -/
structure Evaluated (s s' : AutoShift) : Prop where
  settings : s'.settings = s.settings
  enabled : s'.enabled = s.enabled
  lastkey : s'.lastkey = s.lastkey
  inProgress : s'.inProgress = false
  ledger : ∃ shifted, keyLedger s'.log = (keyLedger s.log).enter (.registered s.lastkey shifted)
  owes : s.Owes → s'.Owes

theorem evaluated (s : AutoShift) (now : UInt16) : Evaluated s (s.evaluate now) := by
  have hsame := sameKeys_cancelShifts (setShiftState
    { s with
      inProgress := false
      lastshifted := s.lastshifted || decide (s.timeout ≤ now - s.time) }
    s.lastkey (s.lastshifted || decide (s.timeout ≤ now - s.time)))
  refine ⟨hsame.settings, hsame.enabled, hsame.lastkey, hsame.inProgress,
    ⟨s.lastshifted || decide (s.timeout ≤ now - s.time), ?_⟩, fun howes => hsame.owes howes⟩
  unfold evaluate
  simp only [pressUser, keyLedger]
  rw [hsame.ledger, hsame.lastkey, hsame.lastshifted]
  rfl

/-- What a tap changes besides: the key is unregistered, and no shift is missing. -/
structure Tapped (s s' : AutoShift) : Prop where
  settings : s'.settings = s.settings
  enabled : s'.enabled = s.enabled
  lastkey : s'.lastkey = s.lastkey
  inProgress : s'.inProgress = false
  ledger : ∃ shifted, keyLedger s'.log =
    ((keyLedger s.log).enter (.registered s.lastkey shifted)).enter (.unregistered s.lastkey)
  owes : s.Owes → s'.Owes
  cancelling : ∀ side, s'.cancelling side = false

theorem tapped (s : AutoShift) (now : UInt16) :
    Tapped s { ((s.evaluate now).releaseUser (s.evaluate now).lastkey).flushShift with time := now } := by
  have heval := evaluated s now
  have hflush := sameKeys_flushShift ((s.evaluate now).releaseUser (s.evaluate now).lastkey)
  obtain ⟨shifted, hledger⟩ := heval.ledger
  refine ⟨hflush.settings.trans heval.settings, hflush.enabled.trans heval.enabled,
    hflush.lastkey.trans heval.lastkey, hflush.inProgress.trans heval.inProgress, ⟨shifted, ?_⟩, fun howes => ?_,
    cancelling_flushShift _⟩
  · refine hflush.ledger.trans ?_
    rw [← hledger, ← heval.lastkey]
    rfl
  · exact hflush.owes (heval.owes howes)

namespace Inv

variable {s' : AutoShift}

theorem accounts_idle (h : s.Inv held) (hidle : s.inProgress = false) : (keyLedger s.log).Accounts none held := by
  rw [← pendingKey_of_not hidle]
  exact h.accounts

theorem of_tapped (h : s.Inv held) (hpending : s.inProgress = true) (ht : Tapped s s') : s'.Inv held := by
  obtain ⟨shifted, hledger⟩ := ht.ledger
  have haccounts := h.accounts
  rw [pendingKey_of hpending] at haccounts
  refine ⟨?_, fun hin => ?_, fun k hk => ?_, ht.owes h.owes, fun side hside => ?_⟩
  · rw [hledger, pendingKey_of_not ht.inProgress]
    exact haccounts.tap shifted
  · cases hin.symm.trans ht.inProgress
  · unfold Shifts
    rw [ht.settings]
    exact h.shifts k hk
  · cases hside.symm.trans (ht.cancelling side)

theorem of_evaluated (h : s.Inv held) (hpending : s.inProgress = true) (he : Evaluated s s') : s'.Inv held := by
  obtain ⟨shifted, hledger⟩ := he.ledger
  obtain ⟨hheld, henabled⟩ := h.pending hpending
  have haccounts := h.accounts
  rw [pendingKey_of hpending] at haccounts
  refine ⟨?_, fun hin => ?_, fun k hk => ?_, he.owes h.owes, fun side _ => ?_⟩
  · rw [hledger, pendingKey_of_not he.inProgress]
    exact haccounts.evaluate hheld shifted
  · cases hin.symm.trans he.inProgress
  · unfold Shifts
    rw [he.settings]
    exact h.shifts k hk
  · rw [he.settings, he.enabled, he.lastkey]
    exact ⟨(h.shifts _ hheld).1, henabled, .inr hheld⟩

theorem finish_tapped (now : UInt16) (hpending : s.inProgress = true) {keycode : Nat}
    (hkey : keycode = s.lastkey ∨ keycode = kcNo) : Tapped s (s.finish keycode now false) := by
  unfold AutoShift.finish
  rw [if_pos ⟨hpending, hkey⟩]
  simp only [Bool.false_eq_true, false_and, if_false]
  exact tapped s now

theorem matrixScan (h : s.Inv held) : (s.matrixScan now).Inv held := by
  unfold AutoShift.matrixScan
  split
  · rename_i hscan
    obtain ⟨-, hpending, -⟩ := hscan
    unfold AutoShift.finish
    rw [if_pos ⟨hpending, .inl rfl⟩]
    simp only
    split
    · exact h.of_evaluated hpending (evaluated s now)
    · exact h.of_tapped hpending (tapped s now)
  · exact h

theorem forget (h : s.Inv held) (hidle : s.inProgress = false) : ({ s with lastkey := kcNo } : AutoShift).Inv held where
  accounts := by
    rw [pendingKey_of_not (s := { s with lastkey := kcNo }) hidle]
    exact h.accounts_idle hidle
  pending hin := absurd (hin.symm.trans hidle) Bool.noConfusion
  shifts := h.shifts
  owes := h.owes
  cancelling side hside := ⟨(h.cancelling side hside).1, (h.cancelling side hside).2.1, .inl rfl⟩

theorem endPending (h : s.Inv held) (now : UInt16) :
    (if s.inProgress then s.finish kcNo now false else s).Inv held ∧
      (if s.inProgress then s.finish kcNo now false else s).inProgress = false ∧
      (if s.inProgress then s.finish kcNo now false else s).settings = s.settings := by
  cases hpending : s.inProgress with
  | false => exact ⟨h, hpending, rfl⟩
  | true =>
    have ht := finish_tapped now hpending (.inr rfl)
    exact ⟨h.of_tapped hpending ht, ht.inProgress, ht.settings⟩

theorem flushed (h : s.Inv held) (hidle : s.inProgress = false) (enabled : Bool) :
    (flushShift { s with enabled := enabled }).Inv held := by
  have hsame := sameKeys_flushShift { s with enabled := enabled }
  have hin : (flushShift { s with enabled := enabled }).inProgress = false := hsame.inProgress.trans hidle
  refine ⟨?_, fun hpending => ?_, fun k hk => ?_, hsame.owes h.owes, fun side hside => ?_⟩
  · rw [pendingKey_of_not hin, hsame.ledger]
    exact h.accounts_idle hidle
  · cases hpending.symm.trans hin
  · unfold Shifts
    rw [hsame.settings]
    exact h.shifts k hk
  · cases hside.symm.trans (cancelling_flushShift _ side)

theorem pressOwn (h : s.Inv held) (hidle : s.inProgress = false) (keycode : Nat) :
    (s.pressOwn keycode).Inv held ∧ (s.pressOwn keycode).inProgress = false ∧
      (s.pressOwn keycode).settings = s.settings := by
  unfold AutoShift.pressOwn
  split_ifs
  · have hsame := sameKeys_flushShift { s with enabled := !s.enabled }
    exact ⟨h.flushed hidle _, hsame.inProgress.trans hidle, hsame.settings⟩
  · refine ⟨⟨h.accounts, fun hin => ?_, h.shifts, h.owes, fun side hside => ?_⟩, hidle, rfl⟩
    · cases hin.symm.trans hidle
    · exact ⟨(h.cancelling side hside).1, rfl, (h.cancelling side hside).2.2⟩
  · have hsame := sameKeys_flushShift { s with enabled := false }
    exact ⟨h.flushed hidle _, hsame.inProgress.trans hidle, hsame.settings⟩
  · exact ⟨h, hidle, rfl⟩

theorem pressWithMods (h : s.Inv held) (hidle : s.inProgress = false) (hshifts : s.Shifts k) :
    ((s.pressWithMods k).logged (.consumed k)).Inv (k :: held) where
  accounts := by
    rw [pendingKey_of_not (s := (s.pressWithMods k).logged (.consumed k)) hidle]
    exact (h.accounts_idle hidle).consumeRegistered false
  pending hin := absurd (hin.symm.trans hidle) Bool.noConfusion
  shifts := List.forall_mem_cons.mpr ⟨hshifts, h.shifts⟩
  owes := h.owes
  cancelling side hside := ⟨(h.cancelling side hside).1, (h.cancelling side hside).2.1, .inl rfl⟩

theorem pressRepeat (h : s.Inv held) (hidle : s.inProgress = false) (hshifts : s.Shifts k)
    (henabled : s.enabled = true) (hkey : k = s.lastkey) : (s.pressRepeat.logged (.consumed k)).Inv (k :: held) := by
  have hsame := sameKeys_cancelShifts s
  have hlast : (s.pressRepeat.logged (.consumed k)).lastkey = k := hsame.lastkey.trans hkey.symm
  refine ⟨?_, fun hin => ?_, ?_, hsame.owes h.owes, fun side _ => ?_⟩
  · rw [pendingKey_of_not (s := s.pressRepeat.logged (.consumed k)) (hsame.inProgress.trans hidle)]
    have hledger : keyLedger (s.pressRepeat.logged (.consumed k)).log =
        ((keyLedger s.log).enter (.registered k s.lastshifted)).enter (.consumed k) := by
      simp only [logged, AutoShift.pressRepeat, pressUser, keyLedger]
      rw [hsame.ledger, hsame.lastkey, hsame.lastshifted, hkey]
    rw [hledger]
    exact (h.accounts_idle hidle).consumeRegistered s.lastshifted
  · cases hin.symm.trans (hsame.inProgress.trans hidle)
  · have hsettings : (s.pressRepeat.logged (.consumed k)).settings = s.settings := hsame.settings
    unfold Shifts
    rw [hsettings]
    exact List.forall_mem_cons.mpr ⟨hshifts, h.shifts⟩
  · rw [hlast]
    refine ⟨?_, hsame.enabled.trans henabled, .inr List.mem_cons_self⟩
    exact (congrArg qsAutoShiftEnable hsame.settings).trans hshifts.1

theorem pressPending (h : s.Inv held) (hidle : s.inProgress = false) (hshifts : s.Shifts k)
    (henabled : s.enabled = true) (now : UInt16) : ((s.pressPending k now).logged (.consumed k)).Inv (k :: held) where
  accounts := (h.accounts_idle hidle).consume
  pending _ := ⟨List.mem_cons_self, henabled⟩
  shifts := List.forall_mem_cons.mpr ⟨hshifts, h.shifts⟩
  owes := h.owes
  cancelling _ _ := ⟨hshifts.1, henabled, .inr List.mem_cons_self⟩

theorem press (h : s.Inv held) (hidle : s.inProgress = false) (hshifts : s.Shifts k)
    (henabled : s.enabled = true) (now : UInt16) : ((s.press k now).logged (.consumed k)).Inv (k :: held) := by
  unfold AutoShift.press
  split
  · exact h.pressWithMods hidle hshifts
  · have hforget : (if s.ModsPressed then { s with lastkey := kcNo } else s).Inv held ∧
        (if s.ModsPressed then { s with lastkey := kcNo } else s).inProgress = false ∧
        (if s.ModsPressed then { s with lastkey := kcNo } else s).enabled = true ∧
        (if s.ModsPressed then { s with lastkey := kcNo } else s).Shifts k := by
      split
      · exact ⟨h.forget hidle, hidle, henabled, hshifts⟩
      · exact ⟨h, hidle, henabled, hshifts⟩
    obtain ⟨hinv, hidle', henabled', hshifts'⟩ := hforget
    generalize (if s.ModsPressed then { s with lastkey := kcNo } else s) = s at hinv hidle' henabled' hshifts' ⊢
    simp only
    split
    · rename_i hrepeats
      exact hinv.pressRepeat hidle' hshifts' henabled' hrepeats.1
    · exact hinv.pressPending hidle' hshifts' henabled' now

/-- A release that is passed on, of a key that Auto Shift does not hold or while nothing depends on it. -/
theorem passRelease (h : s.Inv held) (howes : (s.logged (.released k true)).Owes)
    (hfree : k ∉ held ∨ s.inProgress = false ∧ ∀ side, s.cancelling side = false) :
    (s.logged (.released k true)).Inv (held.erase k) := by
  have hstays : s.inProgress = true ∨ (∃ side, s.cancelling side = true) → k ∉ held := by
    intro hneeds
    rcases hfree with hnot | ⟨hidle, hnone⟩
    · exact hnot
    · rcases hneeds with hin | ⟨side, hside⟩
      · cases hin.symm.trans hidle
      · cases hside.symm.trans (hnone side)
  refine ⟨h.accounts.releasePassed k, fun hin => ?_, fun x hx => ?_, howes, fun side hside => ?_⟩
  · rw [List.erase_of_not_mem (hstays (.inl hin))]
    exact h.pending hin
  · exact h.shifts x (List.mem_of_mem_erase hx)
  · rw [List.erase_of_not_mem (hstays (.inr ⟨side, hside⟩))]
    exact h.cancelling side hside

theorem releaseShiftKey (h : s.Inv held) (side : ShiftSide) :
    ((s.releaseShift side).logged (.released side.keycode true)).Inv (held.erase side.keycode) := by
  have hnot : side.keycode ∉ held := fun hmem => (h.shifts _ hmem).ne_shift side rfl
  have haccounts := h.accounts.releasePassed side.keycode
  rw [List.erase_of_not_mem hnot] at haccounts ⊢
  refine ⟨haccounts, h.pending, h.shifts, h.owes.releaseShift side true, fun x hx => ?_⟩
  have hx' : (if x = side then false else s.cancelling x) = true :=
    (Function.update_apply s.cancelling side false x).symm.trans hx
  split_ifs at hx'
  exact h.cancelling x hx'

theorem releasePending (h : s.Inv held) (hshifts : s.Shifts s.lastkey) (hin : s.inProgress = true) :
    ((s.finish s.lastkey now false).logged (.released s.lastkey false)).Inv (held.erase s.lastkey) := by
  have ht := finish_tapped now hin (.inl rfl)
  have hinv := h.of_tapped hin ht
  obtain ⟨shifted, hledger⟩ := ht.ledger
  have hup : (keyLedger (s.finish s.lastkey now false).log).down s.lastkey = false := by
    rw [hledger]
    exact Function.update_self (β := fun _ => Bool) s.lastkey false _
  refine ⟨hinv.accounts.release (.inr hup), fun hin' => ?_, fun x hx => ?_, ?_, fun side hside => ?_⟩
  · cases hin'.symm.trans ht.inProgress
  · exact hinv.shifts x (List.mem_of_mem_erase hx)
  · exact hinv.owes.released hshifts.ne_shift false
  · cases hside.symm.trans (ht.cancelling side)

theorem releaseFlushed (h : s.Inv held) (hshifts : s.Shifts k)
    (hin : s.inProgress = true → s.lastkey ∈ held.erase k ∧ s.enabled = true) :
    (({ (s.releaseUser k).flushShift with time := now } : AutoShift).logged (.released k false)).Inv
      (held.erase k) := by
  have hsame := sameKeys_flushShift (s.releaseUser k)
  refine ⟨?_, fun hin' => ?_, fun x hx => ?_, ?_, fun side hside => ?_⟩
  · have hledger : keyLedger (({ (s.releaseUser k).flushShift with time := now } : AutoShift).logged
        (.released k false)).log = ((keyLedger s.log).enter (.unregistered k)).enter (.released k false) := by
      simp only [logged, keyLedger]
      rw [hsame.ledger]
      rfl
    have hkey : pendingKey (({ (s.releaseUser k).flushShift with time := now } : AutoShift).logged
        (.released k false)) = s.pendingKey := hsame.pendingKey
    rw [hledger, hkey]
    exact h.accounts.unregisterReleased
  · have hpending := hin (hsame.inProgress.symm.trans hin')
    simp only [logged]
    rw [hsame.lastkey, hsame.enabled]
    exact hpending
  · have hsettings := hsame.settings
    unfold Shifts
    simp only [logged]
    rw [hsettings]
    exact h.shifts x (List.mem_of_mem_erase hx)
  · have howes : Owes { (s.releaseUser k).flushShift with time := now } := hsame.owes h.owes
    exact howes.released hshifts.ne_shift false
  · cases hside.symm.trans (cancelling_flushShift _ side)

theorem finishRelease (h : s.Inv held) (hshifts : s.Shifts k) :
    ((s.finish k now false).logged (.released k false)).Inv (held.erase k) := by
  by_cases hpending : s.inProgress = true ∧ k = s.lastkey
  · obtain ⟨hin, rfl⟩ := hpending
    exact h.releasePending hshifts hin
  · have hend : ¬ (s.inProgress = true ∧ (k = s.lastkey ∨ k = kcNo)) := fun hboth =>
      hpending ⟨hboth.1, hboth.2.resolve_right hshifts.ne_kcNo⟩
    have hin : s.inProgress = true → s.lastkey ∈ held.erase k ∧ s.enabled = true := by
      intro hin
      have hne : s.lastkey ≠ k := fun heq => hpending ⟨hin, heq.symm⟩
      exact ⟨(List.mem_erase_of_ne hne).mpr (h.pending hin).1, (h.pending hin).2⟩
    unfold AutoShift.finish
    rw [if_neg hend]
    simp only
    split
    · exact h.releaseFlushed hshifts hin
    · -- the shifts stay with the last auto-shifted key, which is another one
      rename_i hother
      refine ⟨h.accounts.unregisterReleased, hin, fun x hx => h.shifts x (List.mem_of_mem_erase hx), ?_,
        fun side hside => ?_⟩
      · exact (h.owes : Owes { s.releaseUser k with time := now }).released hshifts.ne_shift false
      · obtain ⟨henable, henabled, hlast⟩ := h.cancelling side hside
        refine ⟨henable, henabled, hlast.imp_right fun hmem => ?_⟩
        exact (List.mem_erase_of_ne (Ne.symm hother)).mpr hmem

end Inv

end Inv

end AutoShift

namespace Typing

section Run

variable {cfg : TypingConfig} {t : Typing} {keycode : Nat}

theorem idle_of_disabled {s : AutoShift} {held : List Nat} (h : s.Inv held)
    (hoff : qsAutoShiftEnable s.settings = false ∨ s.enabled = false) :
    s.inProgress = false ∧ ∀ side, s.cancelling side = false := by
  refine ⟨Bool.eq_false_iff.mpr fun hin => ?_, fun side => Bool.eq_false_iff.mpr fun hside => ?_⟩
  · obtain ⟨hheld, henabled⟩ := h.pending hin
    rcases hoff with hoff | hoff
    · cases hoff.symm.trans (h.shifts _ hheld).1
    · cases hoff.symm.trans henabled
  · obtain ⟨henable, henabled, -⟩ := h.cancelling side hside
    rcases hoff with hoff | hoff
    · cases hoff.symm.trans henable
    · cases hoff.symm.trans henabled

theorem press_inv (h : t.auto.Inv t.held) (now : UInt16) :
    (t.press cfg keycode now).auto.Inv (t.press cfg keycode now).held := by
  unfold Typing.press AutoShift.processAutoShift
  by_cases henable : qsAutoShiftEnable t.auto.settings = false
  · rw [if_pos henable]
    exact h
  rw [if_neg henable]
  simp only [if_true]
  unfold AutoShift.processPress
  obtain ⟨hended, hidle, hsettings⟩ := h.endPending now
  simp only
  generalize (if t.auto.inProgress then t.auto.finish kcNo now false else t.auto) = s at hended hidle hsettings ⊢
  obtain ⟨hown, hidle', hsettings'⟩ := hended.pressOwn hidle keycode
  generalize s.pressOwn keycode = s' at hown hidle' hsettings' ⊢
  split_ifs with hretro hoff hkey
  · exact hown.forget hidle'
  · exact hown
  · refine hown.press hidle' ⟨?_, hkey⟩ (Bool.not_eq_false _ ▸ hoff) now
    rw [hsettings', hsettings]
    exact Bool.not_eq_false _ ▸ henable
  · exact hown.forget hidle'

theorem release_inv (h : t.auto.Inv t.held) (now : UInt16) :
    (t.release cfg keycode now).auto.Inv (t.release cfg keycode now).held := by
  unfold Typing.release AutoShift.processAutoShift
  by_cases henable : qsAutoShiftEnable t.auto.settings = false
  · have hidle := idle_of_disabled h (.inl henable)
    rw [if_pos henable]
    exact h.passRelease (h.owes.released_of_none hidle.2 true) (.inr hidle)
  rw [if_neg henable]
  simp only [Bool.false_eq_true, if_false]
  unfold AutoShift.processRelease
  -- where the key is none of those that shift, none of them is released
  have hfree : (∀ k ∈ t.held, k ≠ keycode) → keycode ∉ t.held := fun hne hmem => hne keycode hmem rfl
  split_ifs with hleft hright hretro hhold hoff hkey
  · rw [hleft]
    exact h.releaseShiftKey .left
  · rw [hright]
    exact h.releaseShiftKey .right
  all_goals
    have hother : ∀ side : ShiftSide, keycode ≠ side.keycode := by
      rintro (_ | _)
      · exact hleft
      · exact hright
  · have hnot := hfree fun k hk heq => by
      cases ((heq ▸ (h.shifts k hk).not_retro : isRetro keycode = false).symm.trans hretro)
    have hinv := h.of_tapped hhold.2.1 (AutoShift.Inv.finish_tapped now hhold.2.1 (.inr rfl))
    exact hinv.passRelease (hinv.owes.released hother true) (.inl hnot)
  · have hnot := hfree fun k hk heq => by
      cases ((heq ▸ (h.shifts k hk).not_retro : isRetro keycode = false).symm.trans hretro)
    exact h.passRelease (h.owes.released hother true) (.inl hnot)
  · have hidle := idle_of_disabled h (.inr hoff)
    exact h.passRelease (h.owes.released_of_none hidle.2 true) (.inr hidle)
  · exact h.finishRelease ⟨Bool.not_eq_false _ ▸ henable, hkey⟩
  · have hnot := hfree fun k hk heq => hkey (heq ▸ (h.shifts k hk).2)
    exact h.passRelease (h.owes.released hother true) (.inl hnot)

theorem settings_inv {call : SettingsCall} (h : t.auto.Inv t.held) (hkeeps : t.KeepsShifting cfg (.settings call)) :
    (t.auto.settingsCall cfg call).Inv t.held where
  accounts := h.accounts
  pending := h.pending
  shifts := hkeeps.1
  owes := h.owes
  cancelling side hside := by
    refine ⟨hkeeps.2 ?_, (h.cancelling side hside).2⟩
    cases side with
    | left => exact .inl hside
    | right => exact .inr hside

theorem step_inv {a : TypingAction} (h : t.auto.Inv t.held) (hkeeps : t.KeepsShifting cfg a) :
    (t.step cfg a).auto.Inv (t.step cfg a).held := by
  cases a with
  | press keycode now => exact press_inv h now
  | release keycode now => exact release_inv h now
  | scan now => exact h.matrixScan
  | settings call => exact settings_inv h hkeeps
  | others mods weakMods oneshotMods capsWordOn => exact ⟨h.accounts, h.pending, h.shifts, h.owes, h.cancelling⟩

theorem start_inv (settings : SettingsState) : (start cfg settings).auto.Inv [] where
  accounts := .empty
  pending hin := absurd hin Bool.false_ne_true
  shifts _ hk := absurd hk List.not_mem_nil
  owes _ := rfl
  cancelling _ hside := absurd hside Bool.false_ne_true

theorem keystrokes_of_inv (h : t.auto.Inv t.held) : t.Keystrokes where
  registered k := by
    have hk := h.accounts.registered k
    have hiff : t.auto.pendingKey = some k ↔ t.auto.Pending k := by
      unfold AutoShift.pendingKey AutoShift.Pending
      cases t.auto.inProgress <;> simp
    simp only [hiff] at hk
    exact hk
  finished k hk := by
    refine ⟨fun hpending => hk (hpending.2 ▸ (h.pending hpending.1).1), Bool.eq_false_iff.mpr fun hdown => ?_⟩
    exact hk (h.accounts.down k hdown)
  unregistered := h.accounts.unregistered
  shifts side hside := (h.cancelling side ((h.owes side).symm.trans hside)).2.2

end Run

end Typing

section Run

variable {cfg : TypingConfig} {t : Typing}

theorem TypingRun.inv (h : TypingRun cfg t) : t.auto.Inv t.held := by
  induction h with
  | start settings => exact Typing.start_inv settings
  | step _ hkeeps ih => exact Typing.step_inv ih hkeeps

/-- Each consumed press is registered once, behind its release at the latest, and then unregistered; a shift is
missing for the last auto-shifted key only, or behind another key. -/
theorem auto_shift_keystrokes (h : TypingRun cfg t) : t.Keystrokes := Typing.keystrokes_of_inv h.inv

end Run

/-- A board with the settings of Auto Shift, and 175 ms and 200 ms for its timeout and the tapping term. -/
def autoShiftBoard (autoShift : UInt8) : SettingsState :=
  { Board.blank.toSettingsState with
    qs := fun a => if a = 27 then autoShift else if a = 0 then 175 else if a = 24 then 200 else 0 }

def padTyping : TypingConfig := ⟨false, true, Firmware.onePad.dims, Firmware.onePad.settings⟩

def Typing.after (autoShift : UInt8) (actions : List TypingAction) : Typing :=
  actions.foldl (Typing.step padTyping) (.start padTyping (autoShiftBoard autoShift))

/-- The first byte of the host's report is written to `QS.auto_shift`. -/
def setAutoShift (autoShift : UInt8) : TypingAction := .settings (.set 3 (fun _ => autoShift) 0 1)

/-- Auto repeat is switched on while `KC_A` is pending. -/
theorem auto_shift_keystrokes_repeat :
    (Typing.after 1 [.press 0x04 10, setAutoShift 33, .scan 200, .release 0x04 900]).auto.log =
        [.released 0x04 false, .unregistered 0x04, .registered 0x04 true, .consumed 0x04] ∧
      (Typing.after 1 [.press 0x04 10, setAutoShift 33, .scan 200, .release 0x04 900]).Keystrokes := by
  have hstart : TypingRun padTyping _ := .start (autoShiftBoard 1)
  have hpress := hstart.step (a := .press 0x04 10) trivial
  have hset := hpress.step (a := setAutoShift 33) ⟨by decide +kernel, by decide +kernel⟩
  have hscan := hset.step (a := .scan 200) trivial
  exact ⟨by decide +kernel, auto_shift_keystrokes (hscan.step (a := .release 0x04 900) trivial)⟩

/-- `KC_A` is unregistered by the scan and again by its release; it is never registered where the host switches
Auto Shift off; and its release leaves the left shift cancelled where `KC_F1` was pressed in between. -/
theorem keystrokes_lost :
    ¬ (Typing.after 1 [.press 0x04 10, .scan 200, .release 0x04 210]).NoKeystrokeLost ∧
      ¬ (Typing.after 1 [.press 0x04 10, setAutoShift 0, .release 0x04 20]).NoKeystrokeLost ∧
      ¬ (Typing.after 33 [.others 0x02 0 0 false, .press 0x04 10, .scan 200, .press 0x3A 250,
        .release 0x04 260]).NoKeystrokeLost := by
  refine ⟨fun h => ?_, fun h => ?_, fun h => ?_⟩
  · have htwice := (h.1 0x04 (by decide +kernel)).2
    revert htwice
    decide +kernel
  · have hnever := (h.1 0x04 (by decide +kernel)).1
    revert hnever
    decide +kernel
  · have hmissing := h.2 (by decide +kernel) .left
    revert hmissing
    decide +kernel

end Keys
end VialQmk
