import VialQmk.Eeprom.Independence

/-!
# Eeprom.Firewall

Where `QK_BOOT` may be stored, and why a bulk packet to a locked board cannot put it there: the
packet check looks at the two cells the packet cuts, against the EEPROM, and at every cell it covers
whole.
-/

namespace VialQmk
namespace Eeprom

open Lib

section Check

variable {chkSz data : Nat}

theorem checkPair_of_ne {i x : Nat} (ram : Ram) (h₀ : x ≠ data + i) (h₁ : x ≠ data + i + 1) :
    checkPair data i ram x = ram x := by
  unfold checkPair
  split
  · rw [Function.update_of_ne h₁, Function.update_of_ne h₀]
  · rfl

theorem checkPair_ne_qkBoot (i : Nat) (ram : Ram) :
    beWord (checkPair data i ram (data + i)) (checkPair data i ram (data + i + 1)) ≠ qkBoot := by
  unfold checkPair
  split
  · rw [Function.update_self, Function.update_of_ne (by omega), Function.update_self]
    decide
  · assumption

theorem checkLoop_of_lt (fuel i : Nat) (ram : Ram) {x : Nat} (h : x < data + i) :
    checkLoop chkSz data fuel i ram x = ram x := by
  induction fuel generalizing i ram with
  | zero => rfl
  | succ fuel ih =>
    rw [checkLoop]
    split
    · rw [ih (i + 2) _ (by omega), checkPair_of_ne _ (by omega) (by omega)]
    · rfl

theorem checkLoop_of_ge (fuel i : Nat) (ram : Ram) {x : Nat} (hpar : (i + chkSz) % 2 = 0)
    (h : data + chkSz ≤ x) : checkLoop chkSz data fuel i ram x = ram x := by
  induction fuel generalizing i ram with
  | zero => rfl
  | succ fuel ih =>
    rw [checkLoop]
    split
    · rw [ih (i + 2) _ (by omega), checkPair_of_ne _ (by omega) (by omega)]
    · rfl

theorem checkLoop_ne_qkBoot (fuel i : Nat) (ram : Ram) {j : Nat} (hfuel : chkSz - i ≤ fuel)
    (hij : i ≤ j) (hj : j < chkSz) (hpar : (j - i) % 2 = 0) :
    beWord (checkLoop chkSz data fuel i ram (data + j))
      (checkLoop chkSz data fuel i ram (data + j + 1)) ≠ qkBoot := by
  induction fuel generalizing i ram with
  | zero => omega
  | succ fuel ih =>
    rw [checkLoop, if_pos (by omega)]
    by_cases he : j = i
    · subst he
      rw [checkLoop_of_lt _ _ _ (by omega), checkLoop_of_lt _ _ _ (by omega)]
      exact checkPair_ne_qkBoot j ram
    · exact ih (i + 2) _ (by omega) (by omega) (by omega)

variable {m : EepromMem} {target : Nat} {offset size : UInt16} {ram : Ram}

/-- The packet after its first byte was checked against the EEPROM. -/
def checkStart (m : EepromMem) (target : Nat) (offset : UInt16) (data : Nat) (ram : Ram) : Ram :=
  if offset.toNat % 2 ≠ 0 ∧ beWord (m (target - 1)) (ram data) = qkBoot then
    Function.update ram data 0xFF else ram

/-- The packet after its last byte was checked against the EEPROM. -/
def checkEnd (m : EepromMem) (target : Nat) (offset size : UInt16) (data : Nat) (ram : Ram) : Ram :=
  if (offset.toNat + size.toNat) % 2 ≠ 0 ∧
      beWord (ram (data + size.toNat - 1)) (m (target + size.toNat)) = qkBoot then
    Function.update ram (data + size.toNat - 1) 0xFF else ram

theorem checkPacket_eq :
    checkPacket m target offset size data ram =
      let chkSz := if (offset.toNat + size.toNat) % 2 ≠ 0 then (size - 1).toNat else size.toNat
      checkLoop chkSz data chkSz (if offset.toNat % 2 ≠ 0 then 1 else 0)
        (checkEnd m target offset size data (checkStart m target offset data ram)) := rfl

theorem chkSz_eq (hsize : 0 < size.toNat) :
    (if (offset.toNat + size.toNat) % 2 ≠ 0 then (size - 1).toNat else size.toNat) =
      size.toNat - (offset.toNat + size.toNat) % 2 := by
  have h1 : (1 : UInt16) ≤ size := by
    rw [UInt16.le_iff_toNat_le]
    exact hsize
  split
  · rw [UInt16.toNat_sub_of_le _ _ h1]
    have h1' : (1 : UInt16).toNat = 1 := rfl
    omega
  · omega

theorem checkStart_ne_qkBoot (hodd : offset.toNat % 2 ≠ 0) :
    beWord (m (target - 1)) (checkStart m target offset data ram data) ≠ qkBoot := by
  unfold checkStart
  split
  · rw [Function.update_self]
    intro h
    have := congrArg loByte h
    rw [loByte_beWord] at this
    exact absurd this (by decide)
  · rename_i h
    exact fun h' => h ⟨hodd, h'⟩

theorem checkEnd_ne_qkBoot (hodd : (offset.toNat + size.toNat) % 2 ≠ 0) :
    beWord (checkEnd m target offset size data ram (data + size.toNat - 1))
      (m (target + size.toNat)) ≠ qkBoot := by
  unfold checkEnd
  split
  · rw [Function.update_self]
    intro h
    have := congrArg hiByte h
    rw [hiByte_beWord] at this
    exact absurd this (by decide)
  · rename_i h
    exact fun h' => h ⟨hodd, h'⟩

theorem checkEnd_of_ne {x : Nat} (h : x ≠ data + size.toNat - 1) :
    checkEnd m target offset size data ram x = ram x := by
  unfold checkEnd
  split
  · rw [Function.update_of_ne h]
  · rfl

theorem checkPacket_start (m : EepromMem) (target : Nat) (ram : Ram) (hsize : 0 < size.toNat)
    (hodd : offset.toNat % 2 = 1) :
    beWord (m (target - 1)) (checkPacket m target offset size data ram data) ≠ qkBoot := by
  rw [checkPacket_eq]
  dsimp only
  rw [if_pos (show offset.toNat % 2 ≠ 0 by omega), checkLoop_of_lt _ _ _ (by omega)]
  by_cases hone : size.toNat = 1
  · -- a one-byte packet at an odd offset ends on a cell boundary
    have he : ¬ ((offset.toNat + size.toNat) % 2 ≠ 0 ∧
        beWord (checkStart m target offset data ram (data + size.toNat - 1))
          (m (target + size.toNat)) = qkBoot) := by omega
    rw [checkEnd, if_neg he]
    exact checkStart_ne_qkBoot (by omega)
  · rw [checkEnd_of_ne (by omega)]
    exact checkStart_ne_qkBoot (by omega)

theorem checkPacket_end (m : EepromMem) (target : Nat) (ram : Ram) (hsize : 0 < size.toNat)
    (hodd : (offset.toNat + size.toNat) % 2 = 1) :
    beWord (checkPacket m target offset size data ram (data + size.toNat - 1))
      (m (target + size.toNat)) ≠ qkBoot := by
  rw [checkPacket_eq]
  dsimp only
  rw [chkSz_eq hsize, checkLoop_of_ge]
  · exact checkEnd_ne_qkBoot (by omega)
  · split <;> omega
  · omega

theorem checkPacket_inner {j : Nat} (hj : j + 1 < size.toNat) (hpar : (offset.toNat + j) % 2 = 0) :
    beWord (checkPacket m target offset size data ram (data + j))
      (checkPacket m target offset size data ram (data + j + 1)) ≠ qkBoot := by
  rw [checkPacket_eq]
  dsimp only
  rw [chkSz_eq (by omega)]
  apply checkLoop_ne_qkBoot
  · omega
  · split <;> omega
  · omega
  · split <;> omega

end Check

section Bulk

variable {g : Geometry} {offset size : UInt16} {data : Nat} {m : EepromMem} {ram : Ram}

/-- A packet to a locked board leaves a cell as it is, or with a keycode other than `QK_BOOT`. -/
theorem setBuffer_locked_cell {layer row column : UInt8} (h : KeyInRange g.toDims layer row column)
    (m : EepromMem) (offset size : UInt16) (data : Nat) (ram : Ram) :
    let m' := (dynamicKeymapSetBuffer g.toDims false m offset size data ram).1
    dynamicKeymapGetKeycode g.toDims m' layer row column =
        dynamicKeymapGetKeycode g.toDims m layer row column ∨
      dynamicKeymapGetKeycode g.toDims m' layer row column ≠ qkBoot := by
  by_cases hk : InKeymap g.toDims offset size
  swap
  · rw [setBuffer_of_not_inKeymap hk]
    exact .inl rfl
  rw [setBuffer_of_inKeymap hk]
  dsimp only
  rw [bulk_set_cell h hk, hiByte_getKeycode h, loByte_getKeycode h]
  generalize hc : cellOffset g.toDims layer row column = c
  have heven : c % 2 = 0 := by
    rw [← hc, cellOffset]
    omega
  simp only [Bool.false_eq_true, if_false, bulkByte]
  by_cases hhi : offset.toNat ≤ c ∧ c < offset.toNat + size.toNat <;>
    by_cases hlo : offset.toNat ≤ c + 1 ∧ c + 1 < offset.toNat + size.toNat
  · rw [if_pos hhi, if_pos hlo, show c + 1 - offset.toNat = c - offset.toNat + 1 by omega,
      ← Nat.add_assoc]
    exact .inr (checkPacket_inner (by omega) (by omega))
  · rw [if_pos hhi, if_neg hlo]
    have hend : beWord (checkPacket m (g.dynamicKeymapEepromAddr + offset.toNat) offset size data ram
          (data + size.toNat - 1))
        (m (g.dynamicKeymapEepromAddr + offset.toNat + size.toNat)) ≠ qkBoot :=
      checkPacket_end m _ ram (by omega) (by omega)
    rw [show data + size.toNat - 1 = data + (c - offset.toNat) by omega,
      show g.dynamicKeymapEepromAddr + offset.toNat + size.toNat =
        g.dynamicKeymapEepromAddr + c + 1 by omega] at hend
    exact .inr hend
  · rw [if_neg hhi, if_pos hlo]
    have hstart : beWord (m (g.dynamicKeymapEepromAddr + offset.toNat - 1))
        (checkPacket m (g.dynamicKeymapEepromAddr + offset.toNat) offset size data ram data) ≠
          qkBoot := checkPacket_start m _ ram (by omega) (by omega)
    rw [show g.dynamicKeymapEepromAddr + offset.toNat - 1 = g.dynamicKeymapEepromAddr + c by omega]
      at hstart
    rw [show c + 1 - offset.toNat = 0 by omega, Nat.add_zero]
    exact .inr hstart
  · rw [if_neg hhi, if_neg hlo, getKeycode_bytes h, hc]
    exact .inl rfl

theorem setBuffer_other {unlocked : Bool} {s : Slot} (hs : s.Valid g) (ht : s.table ≠ .key) :
    s.get g (dynamicKeymapSetBuffer g.toDims unlocked m offset size data ram).1 = s.get g m := by
  by_cases hk : InKeymap g.toDims offset size
  · rw [setBuffer_of_inKeymap hk]
    exact bulk_set_other hs ht hk
  · rw [setBuffer_of_not_inKeymap hk]

end Bulk

inductive TapDanceField where
  | onTap | onHold | onDoubleTap | onTapHold
  deriving DecidableEq, Repr

def TapDanceField.of (e : VialTapDanceEntry) : TapDanceField → UInt16
  | .onTap => e.onTap
  | .onHold => e.onHold
  | .onDoubleTap => e.onDoubleTap
  | .onTapHold => e.onTapHold

inductive KeycodeSlot where
  | cell (layer row column : UInt8)
  | encoder (layer encoderId : UInt8) (clockwise : Bool)
  | tapDance (index : UInt8) (field : TapDanceField)
  | comboOutput (index : UInt8)
  | overrideReplacement (index : UInt8)
  deriving DecidableEq, Repr

namespace KeycodeSlot

def slot : KeycodeSlot → Slot
  | .cell layer row column => .key layer row column
  | .encoder layer encoderId clockwise => .encoder layer encoderId clockwise
  | .tapDance index _ => .tapDance index
  | .comboOutput index => .combo index
  | .overrideReplacement index => .keyOverride index

def part : (s : KeycodeSlot) → s.slot.Value → UInt16
  | .cell .., v | .encoder .., v => v
  | .tapDance _ field, v => field.of v
  | .comboOutput _, v => v.output
  | .overrideReplacement _, v => v.replacement

/-- The keycode as the accessors read it; a slot that does not exist reads as `KC_NO`. -/
def read (g : Geometry) (m : EepromMem) (s : KeycodeSlot) : UInt16 :=
  ((s.slot.get g m).map s.part).getD 0

theorem table_ne (s : KeycodeSlot) : s.slot.table ≠ .setting ∧ s.slot.table ≠ .macroByte := by
  cases s <;> simp [slot, Slot.table]

variable {g : Geometry} {m m' : EepromMem} {s : KeycodeSlot}

theorem valid_of_read (h : s.read g m = qkBoot) : s.slot.Valid g := by
  by_contra hv
  have hz : s.read g m = 0 := by
    cases s with
    | cell layer row column => exact if_neg hv
    | encoder layer id clockwise => exact if_neg hv
    | tapDance i _ | comboOutput i | overrideReplacement i =>
      rw [read, Slot.get_entry_of_not_valid hv (by simp [slot, Slot.table])]
      rfl
  rw [hz] at h
  exact absurd h (by decide)

theorem read_congr (h : s.slot.get g m' = s.slot.get g m) : s.read g m' = s.read g m := by
  rw [read, read, h]

theorem read_set_self (hv : s.slot.Valid g) (v : s.slot.Value) :
    s.read g (s.slot.set g m v) = s.part v := by
  rw [read, Slot.get_set_self hv]
  rfl

/-- After a setter, the keycodes of its slot are those of the value, the others are as before. -/
theorem read_set (hv : s.slot.Valid g) (t : Slot) (v : t.Value) :
    (∃ h : t = s.slot, s.read g (t.set g m v) = s.part (h ▸ v)) ∨
      s.read g (t.set g m v) = s.read g m := by
  by_cases h : t = s.slot
  · subst h
    exact .inl ⟨rfl, read_set_self hv v⟩
  · exact .inr (read_congr (Slot.get_set_of_ne hv (Ne.symm h) m v))

end KeycodeSlot
end Eeprom
end VialQmk
