import Mathlib.Data.List.Dedup
import Mathlib.Data.List.Sort
import VialQmk.Painter.Stream

/-!
# Painter.Font

Font files: the writer of `painter_qff.py` and the glyph lookup of `qp_draw_text.c`.

What the converter makes of the crop of a glyph is a parameter, as it needs the imaging library. A palette is what that
library and the conversion of colours leave of it.
-/

namespace VialQmk
namespace Painter

open Lib

abbrev CodePoint := Fin 0x110000

def asciiCodePoints : List CodePoint := (List.range 95).map fun n => Fin.ofNat _ (0x20 + n)

def unicode (n : Nat) : CodePoint := Fin.ofNat _ n

def generateFontGlyphsList (useAscii : Bool) (unicodeGlyphs : List CodePoint) : List CodePoint :=
  ((if useAscii = true then asciiCodePoints else []) ++ unicodeGlyphs).dedup.insertionSort fun a b => a ≤ b

structure GlyphInfo where
  codePoint : CodePoint
  x : Nat
  w : Nat
deriving DecidableEq, Repr

structure MarkerScan where
  offsets : List Nat
  widths : List Nat
  lastOffset : Nat

def scanPixel {α : Type} [DecidableEq α] (splitColor : α) (scan : MarkerScan) (pixel : α × Nat) : MarkerScan :=
  if pixel.1 = splitColor then
    ⟨scan.offsets ++ [pixel.2], scan.widths ++ [pixel.2 - scan.lastOffset], pixel.2⟩
  else scan

def scanMarkers {α : Type} [DecidableEq α] (splitColor : α) (pixels : List α) : MarkerScan :=
  (pixels.zipIdx 1).foldl (scanPixel splitColor) ⟨[0], [], 0⟩

/-- The offsets and widths of the glyphs, where the last one ends with the image. -/
def glyphSpans {α : Type} [DecidableEq α] (splitColor : α) (pixels : List α) : List Nat × List Nat :=
  let scan := scanMarkers splitColor pixels
  (scan.offsets, scan.widths ++ [pixels.length + 1 - scan.lastOffset])

structure Font where
  glyphData : List GlyphInfo
  glyphHeight : Nat
deriving DecidableEq, Repr

/-- `QFFFont._parse_image`, on an image by its top row and its height. -/
def parseImage {α : Type} [DecidableEq α] (splitColor : α) (pixels : List α) (height : Nat) (includeAsciiGlyphs : Bool)
    (unicodeGlyphs : List CodePoint) : Option Font :=
  let glyphs := generateFontGlyphsList includeAsciiGlyphs unicodeGlyphs
  let (offsets, widths) := glyphSpans splitColor pixels
  if offsets.length ≠ glyphs.length then none
  else some ⟨(glyphs.zip (offsets.zip widths)).map fun g => ⟨g.1, g.2.1, g.2.2⟩, height - 1⟩

structure PlacedGlyph where
  codePoint : CodePoint
  w : Nat
  dataOffset : Nat
  bytes : List UInt8
deriving DecidableEq, Repr

def QFFGlyphInfo.value (g : PlacedGlyph) : Nat := ((g.dataOffset <<< 6) &&& 0xFFFFC0) ||| (g.w &&& 0x3F)

def QFFGlyphInfo.write (g : PlacedGlyph) (includeCodePoint : Bool) : List UInt8 :=
  (if includeCodePoint = true then o24 g.codePoint.val else []) ++ o24 (QFFGlyphInfo.value g)

structure QFFFontDescriptor where
  totalFileSize : Nat
  lineHeight : Nat
  hasAsciiTable : Bool
  unicodeGlyphCount : Nat
  format : Nat
  compression : Nat

def QFFFontDescriptor.write (d : QFFFontDescriptor) : List UInt8 :=
  blockHeader 0x00 20 ++ o24 0x464651 ++ o8 1 ++ o32 d.totalFileSize ++ o32 (4294967295 - d.totalFileSize) ++
    o8 d.lineHeight ++ o8 (if d.hasAsciiTable = true then 1 else 0) ++ o16 (d.unicodeGlyphCount &&& 0xFFFF) ++
    o8 d.format ++ o8 0 ++ o8 d.compression ++ o8 0xFF

def asciiTable (glyphs : List PlacedGlyph) : List UInt8 :=
  blockHeader 0x01 (95 * 3) ++ asciiCodePoints.flatMap fun n =>
    match glyphs.find? fun g => decide (g.codePoint = n) with
    | some g => QFFGlyphInfo.write g false
    | none => []

def unicodeTable (glyphs : List PlacedGlyph) : List UInt8 :=
  blockHeader 0x02 (glyphs.length * 6) ++
    (glyphs.insertionSort fun g g' => g.codePoint ≤ g'.codePoint).flatMap fun g => QFFGlyphInfo.write g true

def paletteDescriptor (entries : List (Nat × Nat × Nat)) : List UInt8 :=
  blockHeader 0x03 (entries.length * 3) ++ entries.flatMap fun e => o8 e.1 ++ o8 e.2.1 ++ o8 e.2.2

def fontDataDescriptor (data : List UInt8) : List UInt8 := blockHeader 0x04 data.length ++ data

/-- What the imaging library and the conversion of colours leave of an image in a format: the bytes of a crop, by its
offset, width and height, and a palette of the size of the format. -/
structure ConvertedImage (format : ValidFormat) where
  cropBytes : Nat → Nat → Nat → List Nat
  palette : List (Nat × Nat × Nat)
  palette_length : palette.length = format.numColors

section

variable {format : ValidFormat}

def glyphImages (img : ConvertedImage format) (useRle : Bool) (font : Font) : List (List UInt8) :=
  let uncompressed := font.glyphData.map fun g => img.cropBytes g.x g.w font.glyphHeight
  let compressed := uncompressed.map compressBytesQmkRle
  if useRle = true ∧ compressed.flatten.length < uncompressed.flatten.length then compressed.map storedBytes
  else uncompressed.map storedBytes

/-- The offset of a glyph is the length of the buffer when its turn comes. -/
def placeGlyphs : Nat → List (GlyphInfo × List UInt8) → List PlacedGlyph
  | _, [] => []
  | offset, (g, bytes) :: rest => ⟨g.codePoint, g.w, offset, bytes⟩ :: placeGlyphs (offset + bytes.length) rest

def usesRle (img : ConvertedImage format) (useRle : Bool) (font : Font) : Bool :=
  useRle && decide ((font.glyphData.map fun g =>
    compressBytesQmkRle (img.cropBytes g.x g.w font.glyphHeight)).flatten.length <
      (font.glyphData.map fun g => img.cropBytes g.x g.w font.glyphHeight).flatten.length)

def includesAscii (glyphs : List PlacedGlyph) : Bool :=
  asciiCodePoints.all fun n => glyphs.any fun g => decide (g.codePoint = n)

def isAscii (n : CodePoint) : Bool := decide (0x20 ≤ n.val) && decide (n.val ≤ 0x7E)

def unicodeGlyphsOf (glyphs : List PlacedGlyph) : List PlacedGlyph :=
  glyphs.filter fun g => !(isAscii g.codePoint && includesAscii glyphs)

def fontBlocks (img : ConvertedImage format) (glyphs : List PlacedGlyph) : List UInt8 :=
  (if includesAscii glyphs = true then asciiTable (glyphs.filter fun g => isAscii g.codePoint) else []) ++
    (if unicodeGlyphsOf glyphs ≠ [] then unicodeTable (unicodeGlyphsOf glyphs) else []) ++
    (if format.hasPalette = true then paletteDescriptor img.palette else []) ++
    fontDataDescriptor (glyphs.flatMap PlacedGlyph.bytes)

/-- `QFFFont.save_to_qff` to the start of a file. A size of 2^32 is an error of `struct.pack`. -/
def saveToQff (img : ConvertedImage format) (useRle : Bool) (font : Font) : Option (List UInt8) :=
  let glyphs := placeGlyphs 0 (font.glyphData.zip (glyphImages img useRle font))
  let fontDescriptor : QFFFontDescriptor :=
    { totalFileSize := 0
      lineHeight := font.glyphHeight
      hasAsciiTable := includesAscii glyphs
      unicodeGlyphCount := (unicodeGlyphsOf glyphs).length
      format := format.imageFormatByte
      compression := if usesRle img useRle font = true then 0x01 else 0x00 }
  let written := fontDescriptor.write ++ fontBlocks img glyphs
  -- the descriptor is written once more when the size is known
  if 4294967296 ≤ written.length then none
  else some ({ fontDescriptor with totalFileSize := written.length }.write ++ written.drop fontDescriptor.write.length)

end

/-- What `qff_read_font_descriptor` copies out, with the format byte not parsed yet. -/
structure FontDescriptorInfo where
  lineHeight : Nat
  hasAsciiTable : Bool
  numUnicodeGlyphs : Nat
  format : Nat
  compressionScheme : Nat
  totalBytes : Nat

def parseFontDescriptor (desc : List UInt8) : Option FontDescriptorInfo :=
  if qgfValidateBlockHeader desc 0x00 20 = false then none
  else if field desc 5 3 ≠ 0x464651 ∨ field desc 8 1 ≠ 1 then none
  else if field desc 13 4 ≠ 4294967295 - field desc 9 4 then none
  else some
    { lineHeight := field desc 17 1
      hasAsciiTable := decide (field desc 18 1 ≠ 0)
      numUnicodeGlyphs := field desc 19 2
      format := field desc 21 1
      compressionScheme := field desc 23 1
      totalBytes := field desc 9 4 }

def qffReadFontDescriptor (s : Stream) : Option FontDescriptorInfo × Stream :=
  match qpStreamRead 25 (qpStreamSetpos 0 s).2 with
  | (none, s) => (none, s)
  | (some desc, s) => (parseFontDescriptor desc, s)

def qffValidateAsciiDescriptor (s : Stream) : Bool × Stream :=
  match qpStreamRead 290 s with
  | (none, s) => (false, s)
  | (some desc, s) => (qgfValidateBlockHeader desc 0x01 285, s)

def qffValidateUnicodeDescriptor (numUnicodeGlyphs : Nat) (s : Stream) : Bool × Stream :=
  match qpStreamRead 5 s with
  | (none, s) => (false, s)
  | (some desc, s) =>
    if qgfValidateBlockHeader desc 0x02 (numUnicodeGlyphs * 6 : Nat) = true then
      (true, (qpStreamSkip (numUnicodeGlyphs * 6) s).2)
    else (false, s)

def qffValidateStream (s : Stream) : Bool × Stream :=
  match qffReadFontDescriptor s with
  | (none, s) => (false, s)
  | (some info, s) =>
    let (ok, s) := if info.hasAsciiTable = true then qffValidateAsciiDescriptor s else (true, s)
    if ok = true ∧ 0 < info.numUnicodeGlyphs then qffValidateUnicodeDescriptor info.numUnicodeGlyphs s else (ok, s)

def qffGetTotalSize (s : Stream) : Nat :=
  match (qffReadFontDescriptor s).1 with
  | none => 0
  | some info => info.totalBytes

/-- The part of `qff_font_handle_t` that the lookup reads. -/
structure FontHandle where
  hasAsciiTable : Bool
  numUnicodeGlyphs : Nat
  bpp : Nat
  hasPalette : Bool
  stream : Stream
deriving DecidableEq, Repr

/-- `qp_load_font_mem`, with a free slot and without a copy in RAM. -/
def qpLoadFontMem (cfg : PainterConfig) (buffer : List UInt8) : Option FontHandle :=
  let length := asInt32 (qffGetTotalSize (qpMakeMemoryStream buffer 25))
  let (ok, stream) := qffValidateStream (qpMakeMemoryStream buffer length)
  if ok = false then none
  else
    match qffReadFontDescriptor stream with
    | (none, _) => none
    | (some info, stream) =>
      let format := (qgfParseFormat info.format).getD ⟨0, false, false⟩
      if qpInternalBppCapable cfg format.bpp = true then
        some ⟨info.hasAsciiTable, info.numUnicodeGlyphs, format.bpp, format.hasPalette, stream⟩
      else none

def FontHandle.dataOffset (font : FontHandle) : Nat :=
  25 + (if font.hasAsciiTable = true then 290 else 0) +
    (if 0 < font.numUnicodeGlyphs then 5 + font.numUnicodeGlyphs * 6 else 0) +
    (if font.hasPalette = true then 5 + 2 ^ font.bpp * 3 else 0)

def prepareGlyphData (font : FontHandle) (value : Nat) (s : Stream) : Option Nat × Stream :=
  match qpStreamSetpos (font.dataOffset + 5 + ((value &&& 0xFFFFC0) >>> 6)) s with
  | (false, s) => (none, s)
  | (true, s) => (some (value &&& 0x3F), s)

def findUnicodeGlyph (font : FontHandle) (codePoint : Nat) : Nat → Stream → Option Nat × Stream
  | 0, s => (none, s)
  | rounds + 1, s =>
    match qpStreamRead 6 s with
    | (none, s) => (none, s)
    | (some glyphInfo, s) =>
      if field glyphInfo 0 3 = codePoint then prepareGlyphData font (field glyphInfo 3 3) s
      else findUnicodeGlyph font codePoint rounds s

/-- `qp_drawtext_prepare_glyph_for_render`: the width of the glyph, and the stream. -/
def prepareGlyphForRender (font : FontHandle) (codePoint : Nat) : Option Nat × Stream :=
  if 0x20 ≤ codePoint ∧ codePoint < 0x7F ∧ font.hasAsciiTable = true then
    match qpStreamSetpos (25 + 5 + (codePoint - 0x20) * 3) font.stream with
    | (false, s) => (none, s)
    | (true, s) =>
      match qpStreamRead 3 s with
      | (none, s) => (none, s)
      | (some glyphInfo, s) => prepareGlyphData font (field glyphInfo 0 3) s
  else
    match qpStreamSetpos (25 + (if font.hasAsciiTable = true then 290 else 0) + 5) font.stream with
    | (false, s) => (none, s)
    | (true, s) => findUnicodeGlyph font codePoint font.numUnicodeGlyphs s

end Painter
end VialQmk
