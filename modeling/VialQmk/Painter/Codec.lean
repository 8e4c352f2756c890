import Mathlib.Data.List.Basic

/-!
# Painter.Codec

The pixel data of a palette image: the converter of `painter.py` and the decoder of `qp_draw_codec.c`.

The converter works on integers; its bytes are what is stored (`storedBytes`). In the decoder a byte
stream is the bytes not read yet, and the two callbacks are functions on a state of their own. The
decoder returns `none` where it would never return.
-/

namespace VialQmk
namespace Painter

structure IndexedImage where
  width : Nat
  height : Nat
  pixels : List Nat
  size : pixels.length = width * height

def bitsPerColor (ncolors : Nat) : Nat := Nat.log2 ncolors

def packByte (ncolors : Nat) (imageBytes : List Nat) (x : Nat) : Nat :=
  let shifter := bitsPerColor ncolors
  let pixelsPerByte := 8 / bitsPerColor ncolors
  (List.range pixelsPerByte).foldl
    (fun byte n =>
      let byteOffset := x * pixelsPerByte + n
      if byteOffset < imageBytes.length then
        byte ||| ((imageBytes.getD byteOffset 0 &&& (ncolors - 1)) <<< (n * shifter))
      else byte)
    0

/-- `convert_image_bytes` for `IMAGE_FORMAT_PALETTE`, without the palette. -/
def convertImageBytes (ncolors : Nat) (im : IndexedImage) : List Nat :=
  let pixelsPerByte := 8 / bitsPerColor ncolors
  let bytesPerPixel := (bitsPerColor ncolors + 7) / 8
  let expectedByteCount :=
    if pixelsPerByte ≠ 0 then (im.width * im.height + (pixelsPerByte - 1)) / pixelsPerByte
    else im.width * im.height * bytesPerPixel
  (List.range expectedByteCount).map (packByte ncolors im.pixels)

def fromEnd (temp : List Nat) (k : Nat) : Nat := temp.getD (temp.length - k) 0

structure RleState where
  output : List Nat
  temp : List Nat
  isRepeat : Bool

def rangeBytes (r : List Nat) : List Nat := (127 + r.length) :: r

/-- A round of `compress_bytes_qmk_rle` after the byte was appended to `temp`. -/
def compressRound (atEnd : Bool) (s : RleState) : RleState :=
  if s.isRepeat = true then
    let isRepeat := decide (fromEnd s.temp 1 = fromEnd s.temp 2)
    if isRepeat = false ∨ s.temp.length = 128 ∨ atEnd = true then
      { output := s.output ++ [if atEnd = true then s.temp.length else s.temp.length - 1, s.temp.getD 0 0]
        temp := [fromEnd s.temp 1]
        isRepeat := false }
    else s
  else if 2 ≤ s.temp.length ∧ fromEnd s.temp 1 = fromEnd s.temp 2 then
    if 2 < s.temp.length then
      { output := s.output ++ rangeBytes (s.temp.take (s.temp.length - 2))
        temp := [fromEnd s.temp 1, fromEnd s.temp 1]
        isRepeat := true }
    else { s with isRepeat := true }
  else if s.temp.length = 128 ∨ atEnd = true then
    { output := s.output ++ rangeBytes s.temp, temp := [], isRepeat := false }
  else s

def compressByte (s : RleState) (c : Nat) : RleState :=
  let s := { s with temp := s.temp ++ [c] }
  if s.temp.length ≤ 1 then s else compressRound false s

def compressBytesQmkRle (bytearray : List Nat) : List Nat :=
  (compressRound true (bytearray.foldl compressByte ⟨[], [], false⟩)).output

def storedBytes (bytes : List Nat) : List UInt8 := bytes.map UInt8.ofNat

def qpStreamGet : List UInt8 → Int × List UInt8
  | [] => (-1, [])
  | b :: rest => (b.toNat, rest)

inductive RleMode where
  | markerByte | repeatingRun | nonRepeatingRun
  deriving DecidableEq, Repr

structure ByteInputState where
  srcStream : List UInt8
  curr : Int
  mode : RleMode
  remain : UInt8

/-- `qp_internal_prepare_input_state`; only the other decoder looks at the mode. -/
def prepareInputState (srcStream : List UInt8) : ByteInputState := ⟨srcStream, 0, .markerByte, 0⟩

def qpDrawimageByteUncompressedDecoder (state : ByteInputState) : Int × ByteInputState :=
  let (c, rest) := qpStreamGet state.srcStream
  (c, { state with curr := c, srcStream := rest })

def readMarker (state : ByteInputState) : ByteInputState :=
  let (marker, rest) := qpStreamGet state.srcStream
  let c := UInt8.ofInt marker
  let (curr, rest) := qpStreamGet rest
  if c ≥ 128 then ⟨rest, curr, .nonRepeatingRun, c - 127⟩ else ⟨rest, curr, .repeatingRun, c⟩

def qpDrawimageByteRleDecoder (state : ByteInputState) : Int × ByteInputState :=
  let state := if state.mode = .markerByte then readMarker state else state
  let c := UInt8.ofInt state.curr
  let state := { state with remain := state.remain - 1 }
  let state :=
    if state.remain > 0 then
      if state.mode = .nonRepeatingRun then
        let (curr, rest) := qpStreamGet state.srcStream
        { state with curr := curr, srcStream := rest }
      else state
    else { state with mode := .markerByte }
  (c.toNat, state)

section Decoder

variable {σ τ : Type} (inputCallback : σ → Int × σ) (outputCallback : UInt8 → τ → Bool × τ)

def decodePixels (bitsPerPixel : Nat) : Nat → Nat → τ → Bool × τ
  | 0, _, outputArg => (true, outputArg)
  | q + 1, byteval, outputArg =>
    let pixelBitmask := (1 <<< bitsPerPixel - 1) % 256
    let (ok, outputArg) := outputCallback (UInt8.ofNat (byteval &&& pixelBitmask)) outputArg
    if ok = true then decodePixels bitsPerPixel q (byteval >>> bitsPerPixel) outputArg else (false, outputArg)

def decodeBytes (bitsPerPixel : Nat) : Nat → Nat → σ → τ → Option (Bool × σ × τ)
  | 0, remainingPixels, inputArg, outputArg =>
    if remainingPixels = 0 then some (true, inputArg, outputArg) else none
  | rounds + 1, remainingPixels, inputArg, outputArg =>
    if remainingPixels = 0 then some (true, inputArg, outputArg)
    else
      let pixelsPerByte := 8 / bitsPerPixel
      let (byteval, inputArg) := inputCallback inputArg
      if byteval < 0 then some (false, inputArg, outputArg)
      else
        let loopPixels := if remainingPixels < pixelsPerByte then remainingPixels else pixelsPerByte
        let (ok, outputArg) := decodePixels outputCallback bitsPerPixel loopPixels byteval.toNat outputArg
        if ok = true then decodeBytes bitsPerPixel rounds (remainingPixels - loopPixels) inputArg outputArg
        else some (false, inputArg, outputArg)

def qpInternalDecodePalette (pixelCount : UInt32) (bitsPerPixel : Nat) (inputArg : σ) (outputArg : τ) :
    Option (Bool × σ × τ) :=
  decodeBytes inputCallback outputCallback bitsPerPixel pixelCount.toNat pixelCount.toNat inputArg outputArg

end Decoder

end Painter
end VialQmk
