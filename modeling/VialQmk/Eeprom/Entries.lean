import VialQmk.Lib.Mem

/-!
# Eeprom.Entries

Keycodes and Vial entries as bytes. Keymap cells and encoder directions are stored big-endian, so
that the host can read the EEPROM directly; the entry structures are copied as they lie in RAM,
that is little-endian.
-/

namespace VialQmk
namespace Eeprom

open Lib

def beWord (h l : UInt8) : UInt16 := (h.toUInt16 <<< 8) ||| l.toUInt16

def hiByte (k : UInt16) : UInt8 := (k >>> 8).toUInt8

def loByte (k : UInt16) : UInt8 := (k &&& 0xFF).toUInt8

theorem beWord_toNat (h l : UInt8) : (beWord h l).toNat = h.toNat * 256 + l.toNat := by
  have hl := l.toNat_lt
  have hh := h.toNat_lt
  have e : h.toNat <<< 8 % 65536 = h.toNat <<< 8 := by
    rw [Nat.shiftLeft_eq]; omega
  simp only [beWord, UInt16.toNat_or, UInt16.toNat_shiftLeft, UInt8.toNat_toUInt16]
  simp only [UInt16.reduceToNat, Nat.reduceMod, Nat.reducePow]
  rw [e, ← Nat.shiftLeft_add_eq_or_of_lt (by omega), Nat.shiftLeft_eq]

theorem hiByte_toNat (k : UInt16) : (hiByte k).toNat = k.toNat / 256 := by
  have hk := k.toNat_lt
  simp [hiByte, Nat.shiftRight_eq_div_pow]
  omega

theorem loByte_toNat (k : UInt16) : (loByte k).toNat = k.toNat % 256 := by
  have h := Nat.and_two_pow_sub_one_eq_mod (k.toNat % 256) 8
  simp [loByte] at h ⊢
  rw [h]

@[simp] theorem beWord_hiByte_loByte (k : UInt16) : beWord (hiByte k) (loByte k) = k := by
  apply UInt16.toNat_inj.mp
  rw [beWord_toNat, hiByte_toNat, loByte_toNat]; omega

@[simp] theorem hiByte_beWord (h l : UInt8) : hiByte (beWord h l) = h := by
  have hl := l.toNat_lt
  apply UInt8.toNat_inj.mp
  rw [hiByte_toNat, beWord_toNat]; omega

@[simp] theorem loByte_beWord (h l : UInt8) : loByte (beWord h l) = l := by
  have hl := l.toNat_lt
  apply UInt8.toNat_inj.mp
  rw [loByte_toNat, beWord_toNat]; omega

def beCodec : Codec UInt8 UInt16 where
  size := 2
  enc k := [hiByte k, loByte k]
  dec b := beWord (b.getD 0 0) (b.getD 1 0)
  enc_length _ := rfl
  dec_enc k := by simp

def byteCodec : Codec UInt8 UInt8 where
  size := 1
  enc v := [v]
  dec b := b.getD 0 0
  enc_length _ := rfl
  dec_enc v := by simp

/-- The `uint16_t` field at byte offset `i` of a structure in RAM. -/
def leWordAt (b : List UInt8) (i : Nat) : UInt16 := beWord (b.getD (i + 1) 0) (b.getD i 0)

structure VialTapDanceEntry where
  onTap : UInt16
  onHold : UInt16
  onDoubleTap : UInt16
  onTapHold : UInt16
  customTappingTerm : UInt16
  deriving DecidableEq, Repr, Inhabited

structure VialComboEntry where
  input : Vector UInt16 4
  output : UInt16
  deriving DecidableEq, Repr, Inhabited

structure VialKeyOverrideEntry where
  trigger : UInt16
  replacement : UInt16
  layers : UInt16
  triggerMods : UInt8
  negativeModMask : UInt8
  suppressedMods : UInt8
  options : UInt8
  deriving DecidableEq, Repr, Inhabited

def VialTapDanceEntry.codec : Codec UInt8 VialTapDanceEntry where
  size := 10
  enc e := [loByte e.onTap, hiByte e.onTap, loByte e.onHold, hiByte e.onHold,
    loByte e.onDoubleTap, hiByte e.onDoubleTap, loByte e.onTapHold, hiByte e.onTapHold,
    loByte e.customTappingTerm, hiByte e.customTappingTerm]
  dec b :=
    { onTap := leWordAt b 0, onHold := leWordAt b 2, onDoubleTap := leWordAt b 4
      onTapHold := leWordAt b 6, customTappingTerm := leWordAt b 8 }
  enc_length _ := rfl
  dec_enc e := by simp [leWordAt]

def VialComboEntry.codec : Codec UInt8 VialComboEntry where
  size := 10
  enc e := [loByte e.input[0], hiByte e.input[0], loByte e.input[1], hiByte e.input[1],
    loByte e.input[2], hiByte e.input[2], loByte e.input[3], hiByte e.input[3],
    loByte e.output, hiByte e.output]
  dec b :=
    { input := #v[leWordAt b 0, leWordAt b 2, leWordAt b 4, leWordAt b 6]
      output := leWordAt b 8 }
  enc_length _ := rfl
  dec_enc e := by
    obtain ⟨input, output⟩ := e
    simp only [leWordAt, List.getD_cons_zero, List.getD_cons_succ, beWord_hiByte_loByte,
      VialComboEntry.mk.injEq, and_true, Nat.reduceAdd]
    ext i hi
    match i, hi with
    | 0, _ => rfl
    | 1, _ => rfl
    | 2, _ => rfl
    | 3, _ => rfl

def VialKeyOverrideEntry.codec : Codec UInt8 VialKeyOverrideEntry where
  size := 10
  enc e := [loByte e.trigger, hiByte e.trigger, loByte e.replacement, hiByte e.replacement,
    loByte e.layers, hiByte e.layers, e.triggerMods, e.negativeModMask, e.suppressedMods,
    e.options]
  dec b :=
    { trigger := leWordAt b 0, replacement := leWordAt b 2, layers := leWordAt b 4
      triggerMods := b.getD 6 0, negativeModMask := b.getD 7 0
      suppressedMods := b.getD 8 0, options := b.getD 9 0 }
  enc_length _ := rfl
  dec_enc e := by simp [leWordAt]

end Eeprom
end VialQmk
