import VialQmk.Eeprom.DynamicKeymap
import VialQmk.Hid.Vial
import VialQmk.Lib.HalfWord

/-!
# Hid.VialRgb

The lighting commands of `vialrgb.c`.

* `setLeds_apply`: a batch of colours, entry by entry.
* `led_index_agreement_iff`: the two commands that name LEDs mean the same LED by an index exactly where its low
  byte does.
-/

namespace VialQmk
namespace Hid

open Lib Eeprom

@[ext]
structure LedPoint where
  x : UInt8
  y : UInt8
deriving DecidableEq, Repr

structure Hsv where
  h : UInt8
  s : UInt8
  v : UInt8
deriving DecidableEq, Repr

structure LedConfig where
  matrixCo : Nat → Nat → UInt8
  point : Nat → LedPoint
  flags : Nat → UInt8

def noLed : UInt8 := 255

/-- The macros of the keyboard, `g_led_config` and `supported_modes` as pairs of a VialRGB id and a QMK id. -/
structure RgbBoard where
  matrixRows : Nat
  matrixCols : Nat
  ledCount : Nat
  maximumBrightness : UInt8
  effectMax : Nat
  supportedModes : List (UInt16 × UInt16)
  ledConfig : LedConfig
  rows_le : matrixRows ≤ 255

structure RgbConfig where
  enable : Bool
  mode : Nat
  hsv : Hsv
  speed : UInt8
deriving DecidableEq, Repr

structure RgbState where
  config : RgbConfig
  directModeColors : Nat → Hsv

def vialrgbProtocolVersion : UInt16 := 1

def vialrgbEffectOff : UInt16 := 0

def wordBytes (w : UInt16) : List UInt8 := [lowByte w, highByte w]

def wordAt (args : Ram) : UInt16 := ofBytes (args 0) (args 1)

def argsOf (data : Ram) : Ram := fun k => data (2 + k)

namespace RgbBoard

variable (b : RgbBoard)

def clampVal (val : UInt8) : UInt8 := if b.maximumBrightness < val then b.maximumBrightness else val

def qmkIdToVialrgbId (id : Nat) : UInt16 :=
  match b.supportedModes.find? fun m => m.2.toNat = id with
  | some m => m.1
  | none => 0

def vialrgbIdToQmkId (id : UInt16) : UInt16 :=
  match b.supportedModes.find? fun m => m.1 = id with
  | some m => m.2
  | none => 0

/-- The bytes that `get_supported` puts into `length` bytes of 0xFF: the ids above `gt` as long as they fit. -/
def supportedBytes (gt : UInt16) : Nat → List (UInt16 × UInt16) → List UInt8
  | length, [] => List.replicate length 0xFF
  | length, m :: modes =>
    if gt < m.1 ∧ 2 ≤ length then wordBytes m.1 ++ supportedBytes gt (length - 2) modes
    else supportedBytes gt length modes

def getMode (config : RgbConfig) : UInt16 :=
  if config.enable then b.qmkIdToVialrgbId config.mode else vialrgbEffectOff

def rgbMatrixMode (mode : Nat) (config : RgbConfig) : RgbConfig :=
  if config.enable = false then config
  else if mode < 1 then { config with mode := 1 }
  else if b.effectMax ≤ mode then { config with mode := b.effectMax - 1 }
  else { config with mode := mode }

def rgbMatrixSethsv (h s v : UInt8) (config : RgbConfig) : RgbConfig :=
  if config.enable = false then config else { config with hsv := ⟨h, s, b.clampVal v⟩ }

def setMode (mode : UInt16) (config : RgbConfig) : RgbConfig :=
  if mode = vialrgbEffectOff then { config with enable := false }
  else b.rgbMatrixMode (b.vialrgbIdToQmkId mode).toUInt8.toNat { config with enable := true }

def keys : List (Nat × Nat) :=
  (List.range b.matrixRows).flatMap fun row => (List.range b.matrixCols).map fun col => (row, col)

def getMatrixPosForLed (led : UInt16) : UInt8 × UInt8 :=
  match b.keys.find? fun k => (b.ledConfig.matrixCo k.1 k.2).toUInt16 = led with
  | some (row, col) => (row.toUInt8, col.toUInt8)
  | none => (0xFF, 0xFF)

def ledInfo (led : UInt16) (pos : UInt8 × UInt8) : List UInt8 :=
  [(b.ledConfig.point led.toNat).x, (b.ledConfig.point led.toNat).y, b.ledConfig.flags led.toNat, pos.1, pos.2]

def ledInfoIndex (args : Ram) : UInt16 := ((args 0).toUInt16 &&& (0xFF : UInt16)) ||| (args 1).toUInt16 >>> 8

def entryColor (args : Ram) (i : Nat) : Hsv := ⟨args (i * 3), args (i * 3 + 1), b.clampVal (args (i * 3 + 2))⟩

/-- The loop of `fast_set_leds` at entry `i`, with `n` entries to go. -/
def setLeds (args : Ram) (firstIndex : Nat) : Nat → Nat → (Nat → Hsv) → Nat → Hsv
  | 0, _, colors => colors
  | n + 1, i, colors =>
    if b.ledCount ≤ i + firstIndex then colors
    else setLeds args firstIndex n (i + 1) (Function.update colors (i + firstIndex) (b.entryColor args i))

def fastSetLeds (args : Ram) (length : Nat) (colors : Nat → Hsv) : Nat → Hsv :=
  if length < 3 then colors
  else
    let numLeds := (args 2).toNat
    if length - 3 < numLeds * 3 then colors
    else b.setLeds (fun k => args (3 + k)) (wordAt args).toNat numLeds 0 colors

/-- The message with the answer of `vialrgb_get_value` in it. -/
def vialrgbGetValue (s : RgbState) (data : Ram) (length : UInt8) : Ram :=
  if length ≠ vialRawEpsize then data
  else
    let args := argsOf data
    match (data 1).toNat with
    | 0x40 => data.writeBlock 2 (wordBytes vialrgbProtocolVersion ++ [b.maximumBrightness])
    | 0x41 =>
      data.writeBlock 2 (wordBytes (b.getMode s.config) ++
        [s.config.speed, s.config.hsv.h, s.config.hsv.s, s.config.hsv.v])
    | 0x42 => data.writeBlock 2 (supportedBytes (wordAt args) (length.toNat - 2) b.supportedModes)
    | 0x43 => data.writeBlock 2 (wordBytes b.ledCount.toUInt16)
    | 0x44 =>
      let led := ledInfoIndex args
      if b.ledCount ≤ led.toNat then data else data.writeBlock 2 (b.ledInfo led (b.getMatrixPosForLed led))
    | _ => data

def vialrgbSetValue (s : RgbState) (data : Ram) (length : UInt8) : RgbState :=
  if length ≠ vialRawEpsize then s
  else
    let args := argsOf data
    match (data 1).toNat with
    | 0x41 =>
      let config := b.setMode (wordAt args) s.config
      { s with config := b.rgbMatrixSethsv (args 3) (args 4) (args 5) { config with speed := args 2 } }
    | 0x42 => { s with directModeColors := b.fastSetLeds args length.toNat s.directModeColors }
    | _ => s

def placeOf (led : UInt16) : UInt8 × UInt8 :=
  match b.keys.find? fun k => b.ledConfig.matrixCo k.1 k.2 ≠ noLed ∧ (b.ledConfig.matrixCo k.1 k.2).toUInt16 = led with
  | some (row, col) => (row.toUInt8, col.toUInt8)
  | none => (0xFF, 0xFF)

/-- A message with the command and an index behind it, the low byte first. -/
def Names (cmd : UInt8) (led : UInt16) (data : Ram) : Prop :=
  data 1 = cmd ∧ (argsOf data).readBlock 0 2 = wordBytes led

def ReportsOn (led : UInt16) : Prop :=
  ∀ s data, Names 0x44 led data →
    (argsOf (b.vialrgbGetValue s data vialRawEpsize)).readBlock 0 5 = b.ledInfo led (b.placeOf led)

/-- A batch of `n` entries from the index on, of which a packet holds nine at most, colours those LEDs. -/
def WritesTo (led : UInt16) : Prop :=
  ∀ s data k, Names 0x42 led data →
    let n := (argsOf data 2).toNat
    (b.vialrgbSetValue s data vialRawEpsize).directModeColors k =
      if n ≤ 9 ∧ led.toNat ≤ k ∧ k < led.toNat + n ∧ k < b.ledCount then
        b.entryColor (fun j => argsOf data (3 + j)) (k - led.toNat)
      else s.directModeColors k

/-- The LED with the low byte of the index for its own has the same place and flags, and for an index from 255 on it
is the LED of no key. -/
def LowByteSuffices (led : UInt16) : Prop :=
  b.ledConfig.point (led &&& 0xFF).toNat = b.ledConfig.point led.toNat ∧
    b.ledConfig.flags (led &&& 0xFF).toNat = b.ledConfig.flags led.toNat ∧
    (led < 255 ∨ ∀ k ∈ b.keys, (b.ledConfig.matrixCo k.1 k.2).toUInt16 ≠ led &&& 0xFF)

section Batch

variable {b} {args : Ram} {firstIndex : Nat}

theorem setLeds_apply (n : Nat) : ∀ (i : Nat) (colors : Nat → Hsv) (k : Nat),
    b.setLeds args firstIndex n i colors k =
      if i + firstIndex ≤ k ∧ k < i + firstIndex + n ∧ k < b.ledCount then b.entryColor args (k - firstIndex)
      else colors k := by
  induction n with
  | zero =>
    intro i colors k
    rw [setLeds, if_neg (by omega)]
  | succ n ih =>
    intro i colors k
    rw [setLeds]
    by_cases hend : b.ledCount ≤ i + firstIndex
    · rw [if_pos hend, if_neg (by omega)]
    · rw [if_neg hend, ih]
      by_cases hk : k = i + firstIndex
      · subst hk
        rw [if_neg (by omega), if_pos (by omega), Function.update_self, Nat.add_sub_cancel]
      · rw [Function.update_of_ne hk]
        refine if_congr ?_ rfl rfl
        omega

theorem wordAt_of_names {cmd : UInt8} {led : UInt16} {data : Ram} (h : Names cmd led data) :
    wordAt (argsOf data) = led := by
  have hbytes := h.2
  simp only [Mem.readBlock, wordBytes, List.cons.injEq, and_true] at hbytes
  rw [wordAt, hbytes.1, hbytes.2, ofBytes_low_high]

theorem writesTo (led : UInt16) : b.WritesTo led := by
  intro s data k hdata n
  have hset : (b.vialrgbSetValue s data vialRawEpsize).directModeColors =
      b.fastSetLeds (argsOf data) 32 s.directModeColors := by
    simp [vialrgbSetValue, hdata.1, vialRawEpsize]
  rw [hset, fastSetLeds, if_neg (by omega)]
  by_cases hn : n ≤ 9
  · rw [if_neg (by omega), wordAt_of_names hdata, setLeds_apply]
    refine if_congr ?_ rfl rfl
    omega
  · rw [if_pos (by omega), if_neg (by omega)]

end Batch

section Report

variable {b} {led : UInt16}

theorem and_255 (n : Nat) : n &&& 255 = n % 256 := Nat.and_two_pow_sub_one_eq_mod n 8

theorem and_lowMask_toNat (led : UInt16) : (led &&& 0xFF).toNat = led.toNat % 256 := by simp [and_255]

theorem ledInfoIndex_of_names {cmd : UInt8} {data : Ram} (h : Names cmd led data) :
    ledInfoIndex (argsOf data) = led &&& 0xFF := by
  have hbytes := h.2
  simp only [Mem.readBlock, wordBytes, List.cons.injEq, and_true] at hbytes
  have hhigh : (argsOf data 1).toUInt16 >>> 8 = 0 := by
    have hlt := (argsOf data 1).toNat_lt
    apply UInt16.toNat_inj.mp
    simp [Nat.shiftRight_eq_div_pow]
    omega
  rw [ledInfoIndex, hhigh, hbytes.1]
  apply UInt16.toNat_inj.mp
  simp [lowByte, and_255]

theorem readBlock_argsOf (data : Ram) (n : Nat) : (argsOf data).readBlock 0 n = data.readBlock 2 n := by
  apply Mem.readBlock_congr
  intro i _
  rw [argsOf, Nat.zero_add]

theorem exists_names (cmd : UInt8) (led : UInt16) : ∃ data, Names cmd led data := by
  refine ⟨Mem.writeBlock (fun _ => 0) 1 (cmd :: wordBytes led), ?_, ?_⟩
  · rfl
  · rw [readBlock_argsOf]
    rfl

theorem reportsOn_iff (h : led.toNat < b.ledCount) :
    b.ReportsOn led ↔
      b.ledInfo (led &&& 0xFF) (b.getMatrixPosForLed (led &&& 0xFF)) = b.ledInfo led (b.placeOf led) := by
  have hlow : ¬ b.ledCount ≤ led.toNat % 256 := by omega
  have hreply : ∀ s data, Names 0x44 led data → (argsOf (b.vialrgbGetValue s data vialRawEpsize)).readBlock 0 5 =
      b.ledInfo (led &&& 0xFF) (b.getMatrixPosForLed (led &&& 0xFF)) := by
    intro s data hdata
    have hget : b.vialrgbGetValue s data vialRawEpsize =
        data.writeBlock 2 (b.ledInfo (led &&& 0xFF) (b.getMatrixPosForLed (led &&& 0xFF))) := by
      simp [vialrgbGetValue, hdata.1, ledInfoIndex_of_names hdata, and_255, hlow]
    rw [readBlock_argsOf, hget]
    exact Mem.readBlock_writeBlock data 2 _
  constructor
  · intro hreports
    obtain ⟨data, hdata⟩ := exists_names 0x44 led
    have s : RgbState := ⟨⟨false, 0, ⟨0, 0, 0⟩, 0⟩, fun _ => ⟨0, 0, 0⟩⟩
    rw [← hreply s data hdata]
    exact hreports s data hdata
  · intro heq s data hdata
    rw [hreply s data hdata]
    exact heq

theorem rowByte_ne {k : Nat × Nat} (hk : k ∈ b.keys) : k.1.toUInt8 ≠ 0xFF := by
  have hrow : k.1 < b.matrixRows := by
    simp only [keys, List.mem_flatMap, List.mem_range, List.mem_map] at hk
    obtain ⟨row, hrow, col, -, rfl⟩ := hk
    exact hrow
  have hle := b.rows_le
  intro heq
  have hnat := congrArg UInt8.toNat heq
  simp at hnat
  omega

theorem getMatrixPosForLed_none_iff : b.getMatrixPosForLed led = (0xFF, 0xFF) ↔
    ∀ k ∈ b.keys, (b.ledConfig.matrixCo k.1 k.2).toUInt16 ≠ led := by
  rw [getMatrixPosForLed]
  cases hfind : b.keys.find? fun k => (b.ledConfig.matrixCo k.1 k.2).toUInt16 = led with
  | none => simpa using hfind
  | some k =>
    have hk := List.mem_of_find?_eq_some hfind
    have hled := List.find?_some hfind
    constructor
    · intro heq
      exact absurd (congrArg Prod.fst heq) (rowByte_ne hk)
    · intro hall
      exact absurd (of_decide_eq_true hled) (hall k hk)

theorem getMatrixPosForLed_of_lt (h : led < 255) : b.getMatrixPosForLed led = b.placeOf led := by
  rw [getMatrixPosForLed, placeOf]
  congr 2
  funext k
  have hno : (b.ledConfig.matrixCo k.1 k.2).toUInt16 = led → b.ledConfig.matrixCo k.1 k.2 ≠ noLed := by
    rintro rfl heq
    rw [heq] at h
    exact absurd h (by decide)
  exact decide_eq_decide.mpr ⟨fun hled => ⟨hno hled, hled⟩, fun hled => hled.2⟩

theorem placeOf_of_ge (h : ¬ led < 255) : b.placeOf led = (0xFF, 0xFF) := by
  have hnone : b.keys.find? (fun k => b.ledConfig.matrixCo k.1 k.2 ≠ noLed ∧
      (b.ledConfig.matrixCo k.1 k.2).toUInt16 = led) = none := by
    rw [List.find?_eq_none]
    intro k _ hk
    obtain ⟨hne, rfl⟩ := of_decide_eq_true hk
    have hlt := (b.ledConfig.matrixCo k.1 k.2).toNat_lt
    rw [UInt16.lt_iff_toNat_lt] at h
    have hnat : (b.ledConfig.matrixCo k.1 k.2).toNat ≠ 255 := fun heq => hne (UInt8.toNat_inj.mp heq)
    simp at h
    omega
  rw [placeOf, hnone]

theorem and_lowMask_of_lt (h : led < 255) : led &&& 0xFF = led := by
  apply UInt16.toNat_inj.mp
  rw [and_lowMask_toNat]
  have hlt := UInt16.lt_iff_toNat_lt.mp h
  simp at hlt
  omega

theorem place_iff : b.getMatrixPosForLed (led &&& 0xFF) = b.placeOf led ↔
    led < 255 ∨ ∀ k ∈ b.keys, (b.ledConfig.matrixCo k.1 k.2).toUInt16 ≠ led &&& 0xFF := by
  by_cases h : led < 255
  · simp [h, and_lowMask_of_lt h, getMatrixPosForLed_of_lt h]
  · rw [placeOf_of_ge h, getMatrixPosForLed_none_iff]
    simp [h]

/-- An index means one LED to both commands exactly where its low byte suffices. -/
theorem led_index_agreement_iff (b : RgbBoard) (led : UInt16) (h : led.toNat < b.ledCount) :
    b.ReportsOn led ∧ b.WritesTo led ↔ b.LowByteSuffices led := by
  have hinfo : b.ledInfo (led &&& 0xFF) (b.getMatrixPosForLed (led &&& 0xFF)) = b.ledInfo led (b.placeOf led) ↔
      b.LowByteSuffices led := by
    rw [LowByteSuffices, ← place_iff]
    simp only [ledInfo, List.cons.injEq, and_true, LedPoint.ext_iff, Prod.ext_iff]
    tauto
  constructor
  · rintro ⟨hreports, -⟩
    exact hinfo.mp ((reportsOn_iff h).mp hreports)
  · intro hlow
    exact ⟨(reportsOn_iff h).mpr (hinfo.mpr hlow), writesTo led⟩

end Report

/-- 300 LEDs in rows of 100. LED 254 belongs to the only key. -/
def wideBoard : RgbBoard where
  matrixRows := 1
  matrixCols := 1
  ledCount := 300
  maximumBrightness := 255
  effectMax := 2
  supportedModes := [(vialrgbEffectOff, 0)]
  ledConfig := ⟨fun _ _ => 254, fun led => ⟨(led % 100).toUInt8, (led / 100).toUInt8⟩, fun _ => 2⟩
  rows_le := by decide

theorem led_index_agreement_iff_seven : wideBoard.ReportsOn 7 ∧ wideBoard.WritesTo 7 :=
  (led_index_agreement_iff wideBoard 7 (by decide)).mpr ⟨rfl, rfl, .inl (by decide)⟩

/-- LED 256 is reported with the place of LED 0. -/
theorem led_above_255_misreported : 256 < wideBoard.ledCount ∧ ¬ wideBoard.ReportsOn 256 := by
  refine ⟨by decide, fun hreports => ?_⟩
  have hinfo := (reportsOn_iff (by decide)).mp hreports
  exact absurd hinfo (by decide)

end RgbBoard

end Hid
end VialQmk
