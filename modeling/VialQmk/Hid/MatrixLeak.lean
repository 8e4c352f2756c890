import VialQmk.Hid.Via

/-!
# Hid.MatrixLeak

Two runs of the raw HID interface that differ in the physical matrix only. The matrix is read by the
switch-state command of an unlocked board and, at the keys of the unlock combo, by the unlock poll.

* `rawHidReceive_locked`: one message to a locked board.
* `no_matrix_leak`: a whole run.
-/

namespace VialQmk
namespace Hid

open Lib Eeprom

/-- The same message at the same time, with the keys of the unlock combo in the same position. -/
structure SameButMatrix (f : Firmware) (i j : HidInput) : Prop where
  data : i.data = j.data
  length : i.length = j.length
  timerElapsedRead : i.timerElapsedRead = j.timerElapsedRead
  timerRead : i.timerRead = j.timerRead
  timerRead32 : i.timerRead32 = j.timerRead32
  combo : ∀ key ∈ f.unlockCombo, i.matrixIsOn key.1 key.2 = j.matrixIsOn key.1 key.2

def replies (f : Firmware) : Board → List HidInput → List Ram
  | _, [] => []
  | b, i :: is =>
    let r := rawHidReceive f b i
    r.2 :: replies f r.1 is

section Step

variable {f : Firmware} {b : Board} {i j : HidInput}

theorem SameButMatrix.holding (h : SameButMatrix f i j) : f.holding i = f.holding j := by
  unfold Firmware.holding
  have hall : ∀ keys : List (UInt8 × UInt8), (∀ key ∈ keys, key ∈ f.unlockCombo) →
      keys.all (fun key => i.matrixIsOn key.1 key.2) = keys.all fun key => j.matrixIsOn key.1 key.2 := by
    intro keys hkeys
    induction keys with
    | nil => rfl
    | cons key keys ih =>
      obtain ⟨hkey, hrest⟩ := List.forall_mem_cons.mp hkeys
      rw [List.all_cons, List.all_cons, h.combo key hkey, ih hrest]
  exact hall f.unlockCombo fun _ h => h

theorem SameButMatrix.unlockPoll (h : SameButMatrix f i j) (b : Board) :
    vialUnlockPoll f b i = vialUnlockPoll f b j := by
  have htime : i.timerElapsed b.vialUnlockTimer = j.timerElapsed b.vialUnlockTimer := by
    rw [HidInput.timerElapsed, HidInput.timerElapsed, h.timerElapsedRead]
  simp only [vialUnlockPoll, h.holding, htime, h.timerRead]

theorem SameButMatrix.vialHandleCmd (h : SameButMatrix f i j) (b : Board) (msg : Ram) (length : UInt8) :
    vialHandleCmd f b i msg length = Hid.vialHandleCmd f b j msg length := by
  have hstart : vialUnlockStart b i = vialUnlockStart b j := by
    rw [vialUnlockStart, vialUnlockStart, h.timerRead]
  simp only [Hid.vialHandleCmd, hstart, h.unlockPoll]

theorem SameButMatrix.getKeyboardValue (h : SameButMatrix f i j) (hlocked : b.vialUnlocked = false) :
    getKeyboardValue f b i = Hid.getKeyboardValue f b j := by
  simp only [Hid.getKeyboardValue, h.data, h.timerRead32, hlocked, Bool.false_eq_true, if_false]

theorem rawHidReceive_locked (h : SameButMatrix f i j) (hlocked : b.vialUnlocked = false) :
    rawHidReceive f b i = rawHidReceive f b j := by
  simp only [rawHidReceive, rawHidSwitch, h.getKeyboardValue hlocked, h.vialHandleCmd, h.data, h.length]

end Step

/-- **No matrix leak.** Two runs from one state, locked before each message: the replies and the
EEPROM do not depend on the matrix outside the unlock combo. -/
theorem no_matrix_leak (f : Firmware) (b : Board) (is js : List HidInput)
    (hsame : List.Forall₂ (SameButMatrix f) is js)
    (hlocked : ∀ pre, pre <+: is → (run f b pre).vialUnlocked = false) :
    replies f b is = replies f b js ∧ (run f b is).eeprom = (run f b js).eeprom := by
  have hboards : replies f b is = replies f b js ∧ run f b is = run f b js := by
    induction hsame generalizing b with
    | nil => exact ⟨rfl, rfl⟩
    | @cons i j is js hij _ ih =>
      have hstep := rawHidReceive_locked (b := b) hij (hlocked [] (List.nil_prefix))
      have hrest : ∀ pre, pre <+: is → (run f (rawHidReceive f b i).1 pre).vialUnlocked = false := by
        intro pre hpre
        exact hlocked (i :: pre) ((List.prefix_cons_inj i).mpr hpre)
      obtain ⟨hreplies, hrun⟩ := ih _ hrest
      rw [hstep] at hreplies hrun
      simp only [replies, run, List.foldl_cons, hstep]
      exact ⟨congrArg _ hreplies, hrun⟩
  exact ⟨hboards.1, congrArg (fun b => b.eeprom) hboards.2⟩

/-- The unlock is started and polled, and the matrix asked for, with a second column of keys
down in one run and only the key of the unlock combo in the other. -/
def polledRun (matrix : UInt8 → UInt32) : List HidInput :=
  [{ HidInput.ofBytes [0x02, 0x03] 0 with matrix := matrix },
    { HidInput.ofBytes [0xFE, 0x06] 0 with matrix := matrix },
    { HidInput.ofBytes [0xFE, 0x07] 101 with matrix := matrix }]

theorem no_matrix_leak_onePad :
    let held := polledRun fun _ => 3
    let alone := polledRun fun row => if row = 0 then 1 else 0
    replies .onePad .blank held = replies .onePad .blank alone ∧
      (run .onePad .blank held).eeprom = (run .onePad .blank alone).eeprom := by
  refine no_matrix_leak .onePad .blank _ _ ?_ ?_
  · have hsame : ∀ bytes t, SameButMatrix .onePad
        { HidInput.ofBytes bytes t with matrix := fun _ => 3 }
        { HidInput.ofBytes bytes t with matrix := fun row => if row = 0 then 1 else 0 } := by
      intro bytes t
      refine ⟨rfl, rfl, rfl, rfl, rfl, fun key hkey => ?_⟩
      rw [List.mem_singleton.mp (show key ∈ [((0 : UInt8), (0 : UInt8))] from hkey)]
      simp only [HidInput.matrixIsOn]
      decide
    exact .cons (hsame _ _) (.cons (hsame _ _) (.cons (hsame _ _) .nil))
  · have htake : ∀ n, n < 4 → (run .onePad .blank
        ((polledRun fun _ => 3).take n)).vialUnlocked = false := by
      decide
    intro pre hpre
    rw [List.prefix_iff_eq_take.mp hpre]
    exact htake pre.length (Nat.lt_succ_of_le hpre.length_le)

end Hid
end VialQmk
