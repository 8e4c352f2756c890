import VialQmk.Painter.Stream
import VialQmk.Painter.Truncated

/-!
# Painter.Image

Image files: the validation of `qgf.c` and the drawing of `qp_draw_image.c`.

A division by 0 and an index outside the lookup table are faults that end a draw. What the driver answers may depend on
all that it was given before; what it makes of a colour is left out.
-/

namespace VialQmk
namespace Painter

open Lib

structure GraphicsDescriptor where
  imageWidth : Nat
  imageHeight : Nat
  frameCount : Nat
  totalBytes : Nat
deriving DecidableEq, Repr

def parseGraphicsDescriptor (desc : List UInt8) : Option GraphicsDescriptor :=
  if qgfValidateBlockHeader desc 0x00 18 = false then none
  else if field desc 5 3 ≠ 0x464751 ∨ field desc 8 1 ≠ 1 then none
  else if field desc 13 4 ≠ 4294967295 - field desc 9 4 then none
  else some ⟨field desc 17 2, field desc 19 2, field desc 21 2, field desc 9 4⟩

def qgfReadGraphicsDescriptor (s : Stream) : Option GraphicsDescriptor × Stream :=
  match qpStreamRead 23 (qpStreamSetpos 0 s).2 with
  | (none, s) => (none, s)
  | (some desc, s) => (parseGraphicsDescriptor desc, s)

def qgfReadFrameOffset (frameNumber : Nat) (s : Stream) : Option Nat × Stream :=
  match qgfReadGraphicsDescriptor s with
  | (none, s) => (none, s)
  | (some graphics, s) =>
    match qpStreamRead 5 s with
    | (none, s) => (none, s)
    | (some frameOffsets, s) =>
      if qgfValidateBlockHeader frameOffsets 0x01 (graphics.frameCount * 4 : Nat) = false then (none, s)
      else if graphics.frameCount ≤ frameNumber then (none, s)
      else
        match qpStreamRead 4 (qpStreamSkip (frameNumber * 4) s).2 with
        | (none, s) => (none, s)
        | (some offset, s) => (some (field offset 0 4), s)

def qgfSeekToFrameDescriptor (frameNumber : Nat) (s : Stream) : Stream :=
  let (offset, s) := qgfReadFrameOffset frameNumber s
  (qpStreamSetpos (offset.getD 0) s).2

theorem qgfSeekToFrameDescriptor_eq (frameNumber : Nat) (s : Stream) : qgfSeekToFrameDescriptor frameNumber s =
    (qpStreamSetpos ((qgfReadFrameOffset frameNumber s).1.getD 0) (qgfReadFrameOffset frameNumber s).2).2 := rfl

-- What is read behind it would evaluate all that was read to get there.
attribute [irreducible] qgfSeekToFrameDescriptor

structure FrameInfo where
  compressionScheme : Nat
  format : FormatInfo
  isDelta : Bool
  left : UInt16
  top : UInt16
  right : UInt16
  bottom : UInt16
  delay : Nat
deriving DecidableEq, Repr

def FrameInfo.zero : FrameInfo := ⟨0, ⟨0, false, false⟩, false, 0, 0, 0, 0, 0⟩

/-- An invalid format leaves what was there; this is not looked at. -/
def qgfParseFrameDescriptor (desc : List UInt8) (info : FrameInfo) : FrameInfo :=
  { info with
    format := (qgfParseFormat (field desc 5 1)).getD info.format
    isDelta := decide (field desc 6 1 &&& 0x02 = 0x02)
    compressionScheme := field desc 7 1
    delay := field desc 9 2 }

def qgfValidateFrameDescriptor (frameNumber : Nat) (s : Stream) : Option FrameInfo × Stream :=
  match qpStreamRead 11 (qgfSeekToFrameDescriptor frameNumber s) with
  | (none, s) => (none, s)
  | (some desc, s) =>
    if qgfValidateBlockHeader desc 0x02 6 = true then (some (qgfParseFrameDescriptor desc FrameInfo.zero), s)
    else (none, s)

def qgfValidatePaletteDescriptor (bpp : Nat) (s : Stream) : Bool × Stream :=
  match qpStreamRead 5 s with
  | (none, s) => (false, s)
  | (some desc, s) =>
    let expectedLength : Nat := 2 ^ bpp * 3
    if qgfValidateBlockHeader desc 0x03 expectedLength = true then (true, (qpStreamSkip expectedLength s).2)
    else (false, s)

def qgfValidateDeltaDescriptor (s : Stream) : Bool × Stream :=
  match qpStreamRead 13 s with
  | (none, s) => (false, s)
  | (some desc, s) => (qgfValidateBlockHeader desc 0x04 8, s)

def qgfValidateFrameDataDescriptor (s : Stream) : Bool × Stream :=
  match qpStreamRead 5 s with
  | (none, s) => (false, s)
  | (some desc, s) => (qgfValidateBlockHeader desc 0x05 (-1), s)

def validateFrame (i : Nat) (s : Stream) : Bool × Stream :=
  match qgfValidateFrameDescriptor i s with
  | (none, s) => (false, s)
  | (some info, s) =>
    let (ok, s) := if info.format.hasPalette = true then qgfValidatePaletteDescriptor info.format.bpp s else (true, s)
    if ok = false then (false, s)
    else
      let (ok, s) := if info.isDelta = true then qgfValidateDeltaDescriptor s else (true, s)
      if ok = false then (false, s) else qgfValidateFrameDataDescriptor s

def validateFrames : Nat → Nat → Stream → Bool × Stream
  | 0, _, s => (true, s)
  | rounds + 1, i, s =>
    match validateFrame i s with
    | (false, s) => (false, s)
    | (true, s) => validateFrames rounds (i + 1) s

def qgfValidateStream (s : Stream) : Bool × Stream :=
  match qgfReadGraphicsDescriptor s with
  | (none, s) => (false, s)
  | (some graphics, s) => validateFrames graphics.frameCount 0 s

structure Hsv888 where
  h : UInt8
  s : UInt8
  v : UInt8
deriving DecidableEq, Repr

section Table

variable {size : Nat}

def Stream.rest (s : Stream) : List UInt8 :=
  (List.range (s.length - s.position).toNat).map fun i => s.buffer.getD (s.position + i) 0

variable (cfg : DrawConfig) (driver : Driver)

/-- A loaded image: its stream may have been read to any place. -/
structure ImageHandle where
  stream : Stream
  width : UInt16
  height : UInt16
  frameCount : Nat
  validated : (qgfValidateStream stream).1 = true
  described : ∃ totalBytes, (qgfReadGraphicsDescriptor stream).1 =
    some ⟨width.toNat, height.toNat, frameCount, totalBytes⟩

def FrameInfo.setDelta (delta : List UInt8) (info : FrameInfo) : FrameInfo :=
  { info with
    left := UInt16.ofNat (field delta 5 2)
    top := UInt16.ofNat (field delta 7 2)
    right := UInt16.ofNat (field delta 9 2)
    bottom := UInt16.ofNat (field delta 11 2) }

end Table

end Painter
end VialQmk
