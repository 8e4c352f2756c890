import VialQmk.Lib.HalfWord
import VialQmk.Lib.Mem

/-!
# Legacy.Driver

The EEPROM emulated in internal flash (`eeprom_legacy_emulated_flash.c`): a compacted area with the complement of the
contents, a write log behind it, and a copy of the contents in RAM.

* `Fee`: the sizes, as `eeprom_legacy_emulated_flash_defs.h` checks them.
* `FlashOp`: what the driver asks of the flash. Half-words are numbered from `FEE_PAGE_BASE_ADDRESS`.
* `Eeprom`: the flash, `DataBuf`, `empty_slot`, and the operations so far.

All operations of the flash succeed, so that a status is not modelled; `writeDirectEntry` answers whether it wrote.
-/

namespace VialQmk
namespace Legacy

open Lib

def FEE_WORD_ENCODING : UInt16 := 0x8000
def FEE_VALUE_NEXT : UInt16 := 0x6000
def FEE_VALUE_RESERVED : UInt16 := 0x4000
def FEE_VALUE_ENCODED : UInt16 := 0x2000
def FEE_BYTE_RANGE : Nat := 0x80
def FEE_EMPTY_WORD : UInt16 := 0xFFFF

structure Fee where
  pageSize : Nat
  pageCount : Nat
  densityBytes : Nat
  writeLogBytes : Nat
  pageSize_even : pageSize % 2 = 0
  density_even : densityBytes % 2 = 0
  writeLog_even : writeLogBytes % 2 = 0
  /-- `FEE_ADDRESS_MAX_SIZE` -/
  density_le : densityBytes ≤ 0x4000
  /-- `FEE_DENSITY_MAX_SIZE` -/
  fits : densityBytes + writeLogBytes ≤ pageCount * pageSize

inductive FlashOp
  | erasePage (page : Nat)
  | programHalfWord (slot : Nat) (data : UInt16)
  deriving DecidableEq, Repr

structure Eeprom where
  flash : Mem UInt16
  dataBuf : Mem UInt8
  emptySlot : Nat
  trace : List FlashOp

section Driver

variable (f : Fee)

namespace Fee

/-- `FEE_COMPACTED_LAST_ADDRESS`, which is `FEE_WRITE_LOG_BASE_ADDRESS`. -/
def logBase : Nat := f.densityBytes / 2

def logLast : Nat := (f.densityBytes + f.writeLogBytes) / 2

end Fee

def FlashOp.run (flash : Mem UInt16) : FlashOp → Mem UInt16
  | .erasePage page =>
    fun i => if page * f.pageSize ≤ 2 * i ∧ 2 * i < (page + 1) * f.pageSize then FEE_EMPTY_WORD else flash i
  | .programHalfWord slot data => Function.update flash slot data

def Eeprom.perform (s : Eeprom) (op : FlashOp) : Eeprom :=
  { s with flash := op.run f s.flash, trace := s.trace ++ [op] }

def wordAt (buf : Mem UInt8) (address : Nat) : UInt16 := ofBytes (buf address) (buf (address + 1))

def setWord (buf : Mem UInt8) (address : Nat) (value : UInt16) : Mem UInt8 :=
  Function.update (Function.update buf address (lowByte value)) (address + 1) (highByte value)

/-- `DataBuf` after the first loop of `EEPROM_Init`. It has `FEE_DENSITY_BYTES` bytes. -/
def loadCompacted (flash : Mem UInt16) : Mem UInt8 := fun a =>
  if a < f.densityBytes then
    if a % 2 = 0 then lowByte (~~~flash (a / 2)) else highByte (~~~flash (a / 2))
  else 0

def replayWord (buf : Mem UInt8) (address : Nat) (wvalue : UInt16) : Mem UInt8 :=
  if address < f.densityBytes then setWord buf address wvalue else buf

def passed (slots : Nat) (r : Mem UInt8 × Nat) : Mem UInt8 × Nat := (r.1, slots + r.2)

/-- The second loop of `EEPROM_Init` over what is left of the log, and how many slots it passes before it stops. -/
def replayLog (buf : Mem UInt8) : List UInt16 → Mem UInt8 × Nat
  | [] => (buf, 0)
  | address :: rest =>
    if address = FEE_EMPTY_WORD then (buf, 0)
    else if address &&& FEE_WORD_ENCODING = 0 then
      passed 1 (replayLog (Function.update buf (address >>> 8).toNat address.toUInt8) rest)
    else if address &&& FEE_VALUE_NEXT = FEE_VALUE_NEXT then
      match rest with
      | [] => (buf, 1)
      | value :: rest' =>
        -- Possibly incomplete write.
        if ~~~value = 0 then passed 2 (replayLog buf rest')
        else
          passed 2 (replayLog (replayWord f buf (((address &&& 0x1FFF) <<< 1).toNat + FEE_BYTE_RANGE) (~~~value)) rest')
    else if address &&& FEE_VALUE_RESERVED ≠ 0 then passed 1 (replayLog buf rest)
    else
      passed 1 (replayLog (replayWord f buf ((address &&& 0x1FFF) <<< 1).toNat ((address &&& FEE_VALUE_ENCODED) >>> 13))
        rest)

def writeLog (flash : Mem UInt16) : List UInt16 := flash.readBlock f.logBase (f.logLast - f.logBase)

def eepromInit (s : Eeprom) : Eeprom :=
  { s with
    dataBuf := (replayLog f (loadCompacted f s.flash) (writeLog f s.flash)).1
    emptySlot := f.logBase + (replayLog f (loadCompacted f s.flash) (writeLog f s.flash)).2 }

def erasePages : Nat → Nat → Eeprom → Eeprom
  | _, 0, s => s
  | page, count + 1, s => erasePages (page + 1) count (s.perform f (.erasePage page))

def eepromClear (s : Eeprom) : Eeprom := { erasePages f 0 f.pageCount s with emptySlot := f.logBase }

def eepromErase (s : Eeprom) : Eeprom := eepromInit f (eepromClear f s)

def programCompacted : Nat → Nat → Eeprom → Eeprom
  | _, 0, s => s
  | slot, count + 1, s =>
    programCompacted (slot + 1) count
      (if wordAt s.dataBuf (2 * slot) ≠ 0 then
        s.perform f (.programHalfWord slot (~~~wordAt s.dataBuf (2 * slot)))
      else s)

def eepromCompact (s : Eeprom) : Eeprom := programCompacted f 0 f.logBase (eepromClear f s)

def writeDirectEntry (address : Nat) (s : Eeprom) : Bool × Eeprom :=
  if s.flash (address / 2) = FEE_EMPTY_WORD then
    if ~~~wordAt s.dataBuf (address / 2 * 2) = FEE_EMPTY_WORD then (true, s)
    else (true, s.perform f (.programHalfWord (address / 2) (~~~wordAt s.dataBuf (address / 2 * 2))))
  else (false, s)

/-- The half-words of a log entry, programmed at `empty_slot++`. -/
def appendEntry : List UInt16 → Eeprom → Eeprom
  | [], s => s
  | w :: ws, s =>
    appendEntry ws { s.perform f (.programHalfWord s.emptySlot w) with emptySlot := s.emptySlot + 1 }

/-- A word entry: two half-words, or one for the values 0 and 1. -/
def wordEntry (address : Nat) (value : UInt16) : List UInt16 :=
  if value ≤ 1 then [(UInt16.ofNat address >>> 1) ||| (FEE_WORD_ENCODING ||| (value <<< 13))]
  else [(UInt16.ofNat (address - FEE_BYTE_RANGE) >>> 1) ||| (FEE_WORD_ENCODING ||| FEE_VALUE_NEXT), ~~~value]

def byteEntry (address : Nat) (value : UInt8) : UInt16 := (UInt16.ofNat address <<< 8) ||| value.toUInt16

def writeLogWordEntry (address : Nat) (s : Eeprom) : Eeprom :=
  if s.emptySlot + (wordEntry address (wordAt s.dataBuf address)).length > f.logLast then eepromCompact f s
  else appendEntry f (wordEntry address (wordAt s.dataBuf address)) s

def writeLogByteEntry (address : Nat) (s : Eeprom) : Eeprom :=
  if s.emptySlot ≥ f.logLast then eepromCompact f s
  else appendEntry f [byteEntry address (s.dataBuf address)] s

/-- What a byte write does behind `eeprom_write_direct_entry`. -/
def logByte (address : Nat) : Bool × Eeprom → Eeprom
  | (true, s) => s
  | (false, s) =>
    if address < FEE_BYTE_RANGE then writeLogByteEntry f address s else writeLogWordEntry f (address / 2 * 2) s

def writeDataByte (address : Nat) (dataByte : UInt8) (s : Eeprom) : Eeprom :=
  if address ≥ f.densityBytes then s
  else if s.dataBuf address = dataByte then s
  else
    logByte f address (writeDirectEntry f address { s with dataBuf := Function.update s.dataBuf address dataByte })

def logChangedBytes (address : Nat) (oldValue dataWord : UInt16) (s : Eeprom) : Eeprom :=
  (if highByte oldValue ≠ highByte dataWord then writeLogByteEntry f (address + 1) else id)
    ((if lowByte oldValue ≠ lowByte dataWord then writeLogByteEntry f address else id) s)

/-- What a word write does behind `eeprom_write_direct_entry`. -/
def logWord (address : Nat) (oldValue dataWord : UInt16) : Bool × Eeprom → Eeprom
  | (true, s) => s
  | (false, s) =>
    if address < FEE_BYTE_RANGE then logChangedBytes f address oldValue dataWord s else writeLogWordEntry f address s

def writeDataWord (address : Nat) (dataWord : UInt16) (s : Eeprom) : Eeprom :=
  if address ≥ f.densityBytes then s
  else if address % 2 = 1 then
    writeDataByte f (address + 1) (highByte dataWord) (writeDataByte f address (lowByte dataWord) s)
  else if wordAt s.dataBuf address = dataWord then s
  else
    logWord f address (wordAt s.dataBuf address) dataWord
      (writeDirectEntry f address { s with dataBuf := setWord s.dataBuf address dataWord })

def readDataByte (address : Nat) (s : Eeprom) : UInt8 := if address < f.densityBytes then s.dataBuf address else 0xFF

def readDataWord (address : Nat) (s : Eeprom) : UInt16 :=
  if address < f.densityBytes - 1 then wordAt s.dataBuf address else 0xFFFF

def readWords (s : Eeprom) : Nat → Nat → List UInt8
  | _, 0 => []
  | address, 1 => [readDataByte f address s]
  | address, len + 2 =>
    lowByte (readDataWord f address s) :: highByte (readDataWord f address s) :: readWords s (address + 2) len

def eepromReadBlock (address len : Nat) (s : Eeprom) : List UInt8 :=
  if len ≠ 0 ∧ address % 2 = 1 then readDataByte f address s :: readWords f s (address + 1) (len - 1)
  else readWords f s address len

inductive Write
  | byte (address : Nat) (value : UInt8)
  | word (address : Nat) (value : UInt16)
  deriving DecidableEq, Repr

def Write.run (s : Eeprom) : Write → Eeprom
  | .byte address value => writeDataByte f address value s
  | .word address value => writeDataWord f address value s

def writeWords : Nat → List UInt8 → List Write
  | _, [] => []
  | address, [value] => [.byte address value]
  | address, lo :: hi :: values => .word address (ofBytes lo hi) :: writeWords (address + 2) values

def blockWrites (address : Nat) : List UInt8 → List Write
  | [] => []
  | value :: values =>
    if address % 2 = 1 then .byte address value :: writeWords (address + 1) values
    else writeWords address (value :: values)

def eepromWriteBlock (address : Nat) (values : List UInt8) (s : Eeprom) : Eeprom :=
  (blockWrites address values).foldl (Write.run f) s

end Driver

end Legacy
end VialQmk
