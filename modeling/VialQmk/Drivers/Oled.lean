import VialQmk.Lib.Mem
import Mathlib.Algebra.Group.Nat.Defs

/-!
# Drivers.Oled

The drawing functions of `oled_driver.c` and `oled_render_dirty`.

* `OledGeometry`: the macros of a display, with the rotation that `oled_init` has set.
* `OledState`: `oled_buffer`, `oled_cursor`, `oled_dirty` and what the display got of each block last. A write outside
  `oled_buffer` has no result.
-/

namespace VialQmk
namespace Drivers

open Lib

/-- The macros of a display. `rotated` is `OLED_ROTATION_90`, and `map` is `OLED_SOURCE_MAP` with `OLED_TARGET_MAP`. -/
structure OledGeometry where
  displayWidth : Nat
  displayHeight : Nat
  blockCount : Nat
  blockSize : Nat
  blockBits : Nat
  fontWidth : Nat
  fontStart : Nat
  fontEnd : Nat
  font : Mem UInt8
  rotated : Bool
  horizontalMode : Bool
  map : List (Nat × Nat)
  updateProcessLimit : Nat
  intWidth : Nat
  blocks : blockCount * blockSize = displayHeight / 8 * displayWidth
  blockCount_le : blockCount ≤ blockBits
  matrixSize_pos : 0 < displayHeight / 8 * displayWidth
  fontWidth_pos : 0 < fontWidth
  intWidth_ge : 16 ≤ intWidth
  map_le : ∀ p ∈ map, p.1 + 8 ≤ blockSize ∧ p.2 + 8 ≤ blockSize

def u16 (n : Nat) : Nat := n % 2 ^ 16

namespace OledGeometry

variable (g : OledGeometry)

def matrixSize : Nat := g.displayHeight / 8 * g.displayWidth

def rotationWidth : Nat := (if g.rotated then g.displayHeight else g.displayWidth) % 2 ^ 8

/-- A sum of two `uint16_t`, which wraps where these are no `int`. -/
def sum (a b : Nat) : Nat := (a + b) % 2 ^ g.intWidth

def blockBit (n : Nat) : BitVec g.blockBits := 1#_ <<< n

def allBlocksMask : BitVec g.blockBits :=
  BitVec.ofNat _ (((1 <<< (g.blockCount - 1)) - 1) <<< 1 ||| 1)

theorem getLsbD_blockBit {n i : Nat} (hi : i < g.blockBits) : (g.blockBit n).getLsbD i = decide (i = n) := by
  by_cases hin : i < n
  · have hne : i ≠ n := Nat.ne_of_lt hin
    simp [blockBit, hin, hne]
  · have heq : i - n = 0 ↔ i = n := by omega
    simp [blockBit, hi, hin, heq]

theorem blockCount_pos : 0 < g.blockCount := by
  have h := g.matrixSize_pos
  rw [← g.blocks] at h
  exact Nat.pos_of_mul_pos_right h

theorem getLsbD_allBlocksMask (i : Nat) : g.allBlocksMask.getLsbD i = decide (i < g.blockCount) := by
  have hpos := g.blockCount_pos
  have hle := g.blockCount_le
  have hbits : i < g.blockCount → i < g.blockBits := fun h => Nat.lt_of_lt_of_le h hle
  rw [allBlocksMask, BitVec.getLsbD_ofNat, Nat.one_shiftLeft]
  cases i with
  | zero => simp [hpos, hbits hpos]
  | succ i =>
    have hiff : i < g.blockCount - 1 ↔ i + 1 < g.blockCount := by omega
    have hzero : Nat.testBit 1 (i + 1) = false := by simp [Nat.testBit_succ]
    by_cases h : i + 1 < g.blockCount
    · simp [Nat.testBit_or, Nat.testBit_shiftLeft, Nat.testBit_two_pow_sub_one, hzero, hiff, h, hbits h]
    · simp [Nat.testBit_or, Nat.testBit_shiftLeft, Nat.testBit_two_pow_sub_one, hzero, hiff, h]

def remaining (index : Nat) : Nat := g.rotationWidth - index % g.rotationWidth

def glyph (data : UInt8) : List UInt8 :=
  if data.toNat < g.fontStart ∨ g.fontEnd < data.toNat then List.replicate g.fontWidth 0
  else g.font.readBlock ((data.toNat - g.fontStart) * g.fontWidth) g.fontWidth

end OledGeometry

def crot (a : UInt8) (n : Int) : UInt8 :=
  let n := (n % 8).toNat
  a <<< n.toUInt8 ||| a >>> ((8 - n) % 8).toUInt8

def rotate90 (src : Nat → UInt8) (dest : Nat) (m : Mem UInt8) : Mem UInt8 :=
  (List.range 8).foldl (fun m i => (List.range 8).foldl (fun m j =>
    Function.update m (dest + i) (m (dest + i) ||| crot (src j &&& (1 <<< i.toUInt8)) (7 - i - j))) m) m

namespace OledGeometry

variable (g : OledGeometry)

def rotateBlock (block : List UInt8) : List UInt8 :=
  (g.map.foldl (fun m p => rotate90 (fun j => block.getD (p.1 + j) 0) p.2 m) (fun _ => 0)).readBlock 0 g.blockSize

def image (block : List UInt8) : List UInt8 := if g.rotated then g.rotateBlock block else block

def columnsInBlock : Nat := ((g.blockSize + g.displayHeight - 1) / g.displayHeight * 8) % 2 ^ 8

def numPages : Nat := (g.blockSize / g.columnsInBlock) % 2 ^ 8

def pieces (block : List UInt8) : List (List UInt8) :=
  if g.rotated ∧ ¬ g.horizontalMode then
    (List.range g.numPages).map fun i => ((g.image block).drop (g.columnsInBlock * i)).take g.columnsInBlock
  else [g.image block]

end OledGeometry

/-- The bytes of a block, and the data that was sent for them. -/
structure Shown where
  bytes : List UInt8
  data : List UInt8
deriving DecidableEq

structure OledState (g : OledGeometry) where
  buffer : Mem UInt8
  cursor : Nat
  dirty : BitVec g.blockBits
  initialized : Bool
  active : Bool
  scrolling : Bool
  sent : Nat → Option Shown

namespace OledState

variable {g : OledGeometry} (s : OledState g)

def store (index : Nat) (bytes : List UInt8) : Option (OledState g) :=
  if index + bytes.length ≤ g.matrixSize then some { s with buffer := s.buffer.writeBlock index bytes } else none

def mark (index : Nat) : OledState g := { s with dirty := s.dirty ||| g.blockBit (index / g.blockSize) }

def putByte (index : Nat) (data : UInt8) : Option (OledState g) :=
  if s.buffer index = data then some s else (s.store index [data]).map fun s => s.mark index

def oledClear : OledState g :=
  { s with
    buffer := s.buffer.writeBlock 0 (List.replicate g.matrixSize 0)
    cursor := 0
    dirty := g.allBlocksMask }

def moveTo (index : Nat) : OledState g := { s with cursor := if g.matrixSize ≤ index then 0 else index }

def oledSetCursor (col line : UInt8) : OledState g :=
  s.moveTo (u16 (line.toNat * g.rotationWidth + col.toNat * g.fontWidth))

def oledAdvanceChar : OledState g :=
  let nextIndex := u16 (s.cursor + g.fontWidth)
  let remainingSpace := g.remaining nextIndex
  s.moveTo (if remainingSpace < g.fontWidth then u16 (nextIndex + remainingSpace) else nextIndex)

def invertCharacter : Option (OledState g) :=
  s.store s.cursor ((s.buffer.readBlock s.cursor g.fontWidth).map (~~~ ·))

/-- `oled_write_char` behind the tests for the ends of a line. -/
def drawChar (data : UInt8) (invert : Bool) : Option (OledState g) :=
  let temp := s.buffer.readBlock s.cursor g.fontWidth
  (s.store s.cursor (g.glyph data)).bind fun s =>
  (if invert then s.invertCharacter else some s).map fun s =>
  oledAdvanceChar <|
    if temp = s.buffer.readBlock s.cursor g.fontWidth then s
    else (s.mark s.cursor).mark (s.cursor + g.fontWidth - 1)

/-- The loop of `oled_advance_page`. A space is no end of a line. -/
def writeSpaces : Nat → OledState g → Option (OledState g)
  | 0, s => some s
  | n + 1, s => (s.drawChar 32 false).bind (writeSpaces n)

def oledAdvancePage (clearPageRemainder : Bool) : Option (OledState g) :=
  let remaining := g.remaining s.cursor
  if clearPageRemainder then writeSpaces (remaining / g.fontWidth) s
  else some (s.moveTo (g.sum s.cursor remaining))

def newline : UInt8 := 10
def carriageReturn : UInt8 := 13

def oledWriteChar (data : UInt8) (invert : Bool) : Option (OledState g) :=
  if data = newline then s.oledAdvancePage true
  else if data = carriageReturn then s.oledAdvancePage false
  else s.drawChar data invert

def oledWrite (invert : Bool) : List UInt8 → OledState g → Option (OledState g)
  | [], s => some s
  | c :: data, s => (s.oledWriteChar c invert).bind (oledWrite invert data)

def oledWriteLn (data : List UInt8) (invert : Bool) : Option (OledState g) :=
  (oledWrite invert data s).bind fun s => s.oledAdvancePage true

/-- A row of `oled_pan`, at the columns in the order of its loop. -/
def panRow (left : Bool) (y : Nat) : List Nat → OledState g → Option (OledState g)
  | [], s => some s
  | x :: xs, s =>
    let i := y * g.displayWidth + x
    (s.store i [s.buffer (if left then i + 1 else i - 1)]).bind (panRow left y xs)

def panColumns (g : OledGeometry) (left : Bool) : List Nat :=
  if left then List.range (g.displayWidth - 1) else ((List.range (g.displayWidth - 1)).map (· + 1)).reverse

def panRows (left : Bool) : List Nat → OledState g → Option (OledState g)
  | [], s => some s
  | y :: ys, s => (panRow left y (panColumns g left) s).bind (panRows left ys)

def oledPan (left : Bool) : Option (OledState g) :=
  (panRows left (List.range (g.displayHeight / 8)) s).map fun s => { s with dirty := g.allBlocksMask }

def oledWriteRawByte (data : UInt8) (index : UInt16) : Option (OledState g) :=
  s.putByte (if g.matrixSize < index.toNat then g.matrixSize else index.toNat) data

def writeRawLoop (data : Nat → UInt8) : Nat → Nat → OledState g → Option (OledState g)
  | 0, _, s => some s
  | n + 1, i, s => (s.putByte i (data 0)).bind (writeRawLoop (fun k => data (k + 1)) n (i + 1))

def oledWriteRaw (data : Nat → UInt8) (size : UInt16) : Option (OledState g) :=
  let size := if g.matrixSize < g.sum size.toNat s.cursor then g.matrixSize - s.cursor else size.toNat
  writeRawLoop data (g.sum s.cursor size - s.cursor) s.cursor s

def oledWritePixel (x y : UInt8) (on : Bool) : Option (OledState g) :=
  if g.rotationWidth ≤ x.toNat then some s
  else
    let index := u16 (x.toNat + y.toNat / 8 * g.rotationWidth)
    if g.matrixSize ≤ index then some s
    else
      let bit : UInt8 := 1 <<< (y % 8)
      s.putByte index (if on then s.buffer index ||| bit else s.buffer index &&& ~~~bit)

def oledOn (sent : Bool) : OledState g := if s.initialized then { s with active := s.active || sent } else s

def send : Nat → Option Nat
  | 0 => none
  | good + 1 => some good

def sendPages : Nat → List (List UInt8) → Option Nat
  | good, [] => some good
  | good, _ :: pages => (send good).bind fun good => (send good).bind fun good => sendPages good pages

def sendBlock (good : Nat) : List (List UInt8) → Option Nat
  | [] => send good
  | _ :: pages => (send good).bind fun good => (send good).bind fun good => sendPages good pages

/-- The search for the next dirty block. Behind the last bit it has no end. -/
def nextDirty {w : Nat} (dirty : BitVec w) (start : Nat) : Option Nat :=
  if dirty.getLsbD start then some start
  else if start < w then nextDirty dirty (start + 1) else none
termination_by w - start

theorem getLsbD_nextDirty {w : Nat} {dirty : BitVec w} {start n : Nat} (h : nextDirty dirty start = some n) :
    dirty.getLsbD n = true := by
  fun_induction nextDirty dirty start with
  | case1 start hbit =>
    cases h
    exact hbit
  | case2 start _ _ ih => exact ih h
  | case3 => cases h

def block (n : Nat) : List UInt8 := s.buffer.readBlock (g.blockSize * n) g.blockSize

def rendered (n : Nat) : OledState g :=
  { s with
    dirty := s.dirty &&& ~~~(g.blockBit n)
    sent := Function.update s.sent n (some ⟨s.block n, (g.pieces (s.block n)).flatten⟩) }

theorem toNat_rendered_lt {n : Nat} (h : s.dirty.getLsbD n = true) : (s.rendered n).dirty.toNat < s.dirty.toNat := by
  have hbit : (s.rendered n).dirty.getLsbD n = false := by
    have hlt : n < g.blockBits := BitVec.lt_of_getLsbD h
    simp [rendered, g.getLsbD_blockBit hlt]
  refine Nat.lt_of_le_of_ne ?_ fun heq => ?_
  · rw [rendered, BitVec.toNat_and]
    exact Nat.and_le_left
  · rw [BitVec.eq_of_toNat_eq heq, h] at hbit
    cases hbit

/-- The loop of `oled_render_dirty`, with `num_processed` blocks done. -/
def renderLoop (all : Bool) (s : OledState g) (updateStart numProcessed good : Nat) : Option (OledState g) :=
  if s.dirty ≠ 0 ∧ (numProcessed % 2 ^ 8 < g.updateProcessLimit ∨ all) then
    match _h : nextDirty s.dirty updateStart with
    | none => none
    | some n =>
      match sendBlock good (g.pieces (s.block n)) with
      | none => some s
      | some good => renderLoop all (s.rendered n) n (numProcessed + 1) good
  else some s
termination_by s.dirty.toNat
decreasing_by exact s.toNat_rendered_lt (getLsbD_nextDirty _h)

/-- `oled_render_dirty`, where the command of `oled_on` is sent or not and the first `good` sends behind it are. -/
def oledRenderDirty (all onSent : Bool) (good : Nat) : Option (OledState g) :=
  let s := { s with dirty := s.dirty &&& g.allBlocksMask }
  if s.dirty = 0 ∨ ¬ s.initialized ∨ s.scrolling then some s
  else renderLoop all (s.oledOn onSent) 0 0 good

end OledState

inductive OledCall where
  | clear
  | setCursor (col line : UInt8)
  | writeChar (data : UInt8) (invert : Bool)
  | write (data : List UInt8) (invert : Bool)
  | writeLn (data : List UInt8) (invert : Bool)
  | advancePage (clearPageRemainder : Bool)
  | pan (left : Bool)
  | writeRaw (data : Nat → UInt8) (size : UInt16)
  | writeRawByte (data : UInt8) (index : UInt16)
  | writePixel (x y : UInt8) (on : Bool)
  | renderDirty (all onSent : Bool) (good : Nat)

namespace OledState

variable {g : OledGeometry}

def call (s : OledState g) : OledCall → Option (OledState g)
  | .clear => some s.oledClear
  | .setCursor col line => some (s.oledSetCursor col line)
  | .writeChar data invert => s.oledWriteChar data invert
  | .write data invert => oledWrite invert data s
  | .writeLn data invert => s.oledWriteLn data invert
  | .advancePage clearPageRemainder => s.oledAdvancePage clearPageRemainder
  | .pan left => s.oledPan left
  | .writeRaw data size => s.oledWriteRaw data size
  | .writeRawByte data index => s.oledWriteRawByte data index
  | .writePixel x y on => s.oledWritePixel x y on
  | .renderDirty all onSent good => s.oledRenderDirty all onSent good

def run : List OledCall → OledState g → Option (OledState g)
  | [], s => some s
  | c :: calls, s => (s.call c).bind (run calls)

end OledState

end Drivers
end VialQmk
