import VialQmk.Painter.Font

/-!
# Painter.FontLookup

The glyph lookup finds what the writer of the font file wrote.

`glyph_lookup_iff`: it does for all code points, if and only if the glyphs are narrower than 64 pixels, the data of each
begins before byte 2^18 of the image data, fewer than 65536 glyphs are in the unicode table, and the file is smaller
than 2^31 bytes.
-/

namespace VialQmk
namespace Painter

open Lib

/-! ## The glyphs of a font -/

section

variable {α : Type} [DecidableEq α] {splitColor : α}

theorem scanMarkers_lengths (pixels : List (α × Nat)) : ∀ scan : MarkerScan,
    scan.offsets.length = scan.widths.length + 1 →
      (pixels.foldl (scanPixel splitColor) scan).offsets.length =
        (pixels.foldl (scanPixel splitColor) scan).widths.length + 1 := by
  induction pixels with
  | nil => intro scan h; exact h
  | cons pixel pixels ih =>
    intro scan h
    refine ih _ ?_
    rw [scanPixel]
    split
    · simp [h]
    · exact h

theorem glyphSpans_lengths (pixels : List α) :
    (glyphSpans splitColor pixels).1.length = (glyphSpans splitColor pixels).2.length := by
  have h := @scanMarkers_lengths α _ splitColor (pixels.zipIdx 1) ⟨[0], [], 0⟩ rfl
  simpa [glyphSpans, scanMarkers] using h

theorem generateFontGlyphsList_sorted (useAscii : Bool) (unicodeGlyphs : List CodePoint) :
    (generateFontGlyphsList useAscii unicodeGlyphs).Pairwise (· < ·) := by
  have hle := List.pairwise_insertionSort (fun a b : CodePoint => a ≤ b)
    ((if useAscii = true then asciiCodePoints else []) ++ unicodeGlyphs).dedup
  have hne : (generateFontGlyphsList useAscii unicodeGlyphs).Nodup :=
    (List.perm_insertionSort _ _).nodup_iff.mpr (List.nodup_dedup _)
  exact (hle.and hne).imp fun h => lt_of_le_of_ne h.1 h.2

/-- The fonts that `_parse_image` makes: some glyphs, in the order of their code points. -/
structure Font.Ordered (font : Font) : Prop where
  nonempty : font.glyphData ≠ []
  sorted : (font.glyphData.map GlyphInfo.codePoint).Pairwise (· < ·)

theorem parseImage_ordered {pixels : List α} {height : Nat} {includeAsciiGlyphs : Bool} {unicodeGlyphs : List CodePoint}
    {font : Font} (h : parseImage splitColor pixels height includeAsciiGlyphs unicodeGlyphs = some font) :
    font.Ordered := by
  have hspans := @glyphSpans_lengths α _ splitColor pixels
  have hone : (glyphSpans splitColor pixels).1.length ≠ 0 := by
    rw [hspans]
    simp [glyphSpans]
  rw [parseImage] at h
  generalize glyphSpans splitColor pixels = spans at h hspans hone
  obtain ⟨offsets, widths⟩ := spans
  dsimp only at h hspans hone
  split at h
  · cases h
  · rename_i hlength
    rw [not_not] at hlength
    cases h
    have hzip : ((generateFontGlyphsList includeAsciiGlyphs unicodeGlyphs).zip (offsets.zip widths)).length =
        offsets.length := by
      rw [List.length_zip, List.length_zip, ← hspans, ← hlength, Nat.min_self, Nat.min_self]
    refine ⟨fun hnil => hone ?_, ?_⟩
    · rw [List.map_eq_nil_iff] at hnil
      rw [← hzip, hnil]
      rfl
    · have hmap : ((((generateFontGlyphsList includeAsciiGlyphs unicodeGlyphs).zip (offsets.zip widths)).map
          fun g => (⟨g.1, g.2.1, g.2.2⟩ : GlyphInfo)).map GlyphInfo.codePoint) =
            generateFontGlyphsList includeAsciiGlyphs unicodeGlyphs := by
        rw [List.map_map]
        refine List.map_fst_zip ?_
        rw [List.length_zip, ← hspans, hlength, Nat.min_self]
      rw [hmap]
      exact generateFontGlyphsList_sorted includeAsciiGlyphs unicodeGlyphs

end

/-! ## Where the glyphs are placed -/

section

variable {format : ValidFormat} {img : ConvertedImage format} {useRle : Bool} {font : Font}

theorem length_glyphImages : (glyphImages img useRle font).length = font.glyphData.length := by
  rw [glyphImages]
  split <;> simp

theorem placeGlyphs_codePoints : ∀ (offset : Nat) (glyphs : List (GlyphInfo × List UInt8)),
    (placeGlyphs offset glyphs).map PlacedGlyph.codePoint = glyphs.map fun g => g.1.codePoint := by
  intro offset glyphs
  induction glyphs generalizing offset with
  | nil => rfl
  | cons g glyphs ih => exact congrArg (g.1.codePoint :: ·) (ih _)

theorem placeGlyphs_bytes : ∀ (offset : Nat) (glyphs : List (GlyphInfo × List UInt8)),
    (placeGlyphs offset glyphs).flatMap PlacedGlyph.bytes = glyphs.flatMap Prod.snd := by
  intro offset glyphs
  induction glyphs generalizing offset with
  | nil => rfl
  | cons g glyphs ih => exact congrArg (g.2 ++ ·) (ih _)

theorem getElem?_placeGlyphs : ∀ (offset : Nat) (glyphs : List (GlyphInfo × List UInt8)) (i : Nat),
    (placeGlyphs offset glyphs)[i]? = glyphs[i]?.map fun g =>
      ⟨g.1.codePoint, g.1.w, offset + ((glyphs.take i).flatMap Prod.snd).length, g.2⟩ := by
  intro offset glyphs
  induction glyphs generalizing offset with
  | nil => intro i; simp [placeGlyphs]
  | cons g glyphs ih =>
    intro i
    cases i with
    | zero => simp [placeGlyphs]
    | succ i =>
      rw [placeGlyphs, List.getElem?_cons_succ, List.getElem?_cons_succ, ih]
      simp [Nat.add_assoc]

def writtenGlyphs (img : ConvertedImage format) (useRle : Bool) (font : Font) : List PlacedGlyph :=
  placeGlyphs 0 (font.glyphData.zip (glyphImages img useRle font))

theorem writtenGlyphs_codePoints : (writtenGlyphs img useRle font).map PlacedGlyph.codePoint =
    font.glyphData.map GlyphInfo.codePoint := by
  rw [writtenGlyphs, placeGlyphs_codePoints]
  have h := congrArg (List.map GlyphInfo.codePoint)
    (@List.map_fst_zip _ _ font.glyphData (glyphImages img useRle font) (by rw [length_glyphImages]))
  rw [List.map_map] at h
  exact h

theorem writtenGlyphs_bytes : (writtenGlyphs img useRle font).flatMap PlacedGlyph.bytes =
    (glyphImages img useRle font).flatten := by
  rw [writtenGlyphs, placeGlyphs_bytes, List.flatMap_def, List.map_snd_zip (by rw [length_glyphImages])]

theorem getElem?_writtenGlyphs {i : Nat} {g : GlyphInfo} (h : font.glyphData[i]? = some g) :
    ∃ bytes, (writtenGlyphs img useRle font)[i]? =
      some ⟨g.codePoint, g.w, ((glyphImages img useRle font).take i).flatten.length, bytes⟩ := by
  obtain ⟨hi, -⟩ := List.getElem?_eq_some_iff.mp h
  obtain ⟨bytes, hbytes⟩ : ∃ bytes, (glyphImages img useRle font)[i]? = some bytes :=
    ⟨_, List.getElem?_eq_getElem (by rw [length_glyphImages]; exact hi)⟩
  refine ⟨bytes, ?_⟩
  have hzip : (font.glyphData.zip (glyphImages img useRle font))[i]? = some (g, bytes) :=
    List.getElem?_zip_eq_some.mpr ⟨h, hbytes⟩
  rw [writtenGlyphs, getElem?_placeGlyphs, hzip]
  have htake : ((font.glyphData.zip (glyphImages img useRle font)).take i).flatMap Prod.snd =
      ((glyphImages img useRle font).take i).flatten := by
    rw [List.flatMap_def, List.map_take, List.map_snd_zip (by rw [length_glyphImages])]
  rw [htake, Option.map_some, Nat.zero_add]

end

/-! ## The value of a glyph -/

variable (g : PlacedGlyph)

theorem value_eq : QFFGlyphInfo.value g = 64 * (g.dataOffset % 262144) + g.w % 64 := by
  have hlow : g.w &&& 0x3F = g.w % 64 := Nat.and_two_pow_sub_one_eq_mod g.w 6
  have hhigh : (g.dataOffset <<< 6) &&& 0xFFFFC0 = (g.dataOffset % 262144) <<< 6 := by
    have hmask : 0xFFFFC0 = (2 ^ 18 - 1) <<< 6 := rfl
    rw [hmask, ← Nat.shiftLeft_and_distrib, Nat.and_two_pow_sub_one_eq_mod]
  rw [QFFGlyphInfo.value, hlow, hhigh, ← Nat.shiftLeft_add_eq_or_of_lt (by omega : g.w % 64 < 2 ^ 6),
    Nat.shiftLeft_eq]
  omega

theorem value_lt : QFFGlyphInfo.value g < 16777216 := by
  rw [value_eq]
  omega

theorem value_width : QFFGlyphInfo.value g &&& 0x3F = g.w % 64 := by
  have h := Nat.and_two_pow_sub_one_eq_mod (QFFGlyphInfo.value g) 6
  rw [value_eq] at h ⊢
  rw [show (0x3F : Nat) = 2 ^ 6 - 1 from rfl, h]
  omega

theorem value_offset : (QFFGlyphInfo.value g &&& 0xFFFFC0) >>> 6 = g.dataOffset % 262144 := by
  have hmask : (0xFFFFC0 : Nat) >>> 6 = 2 ^ 18 - 1 := rfl
  rw [Nat.shiftRight_and_distrib, hmask, Nat.and_two_pow_sub_one_eq_mod, value_eq, Nat.shiftRight_eq_div_pow]
  omega

theorem leNat_write : leNat (QFFGlyphInfo.write g false) = QFFGlyphInfo.value g := by
  have hwrite : QFFGlyphInfo.write g false = o24 (QFFGlyphInfo.value g) := rfl
  rw [hwrite, o24_eq, leNat_leBytes_of_lt (value_lt g)]

theorem length_write_false : (QFFGlyphInfo.write g false).length = 3 := by
  simp [QFFGlyphInfo.write]

theorem length_write_true : (QFFGlyphInfo.write g true).length = 6 := by
  simp [QFFGlyphInfo.write]

theorem fields_write : field (QFFGlyphInfo.write g true) 0 3 = g.codePoint.val ∧
    field (QFFGlyphInfo.write g true) 3 3 = QFFGlyphInfo.value g := by
  have hcode := g.codePoint.isLt
  have hwrite : QFFGlyphInfo.write g true = o24 g.codePoint.val ++ (o24 (QFFGlyphInfo.value g) ++ []) := by
    rw [List.append_nil]
    rfl
  rw [hwrite]
  constructor
  · rw [field_here (length_o24 _), o24_eq, leNat_leBytes_of_lt (by omega)]
  · rw [field_skip (by simp), length_o24, field_here (length_o24 _), o24_eq, leNat_leBytes_of_lt (value_lt g)]

/-! ## The two tables -/

theorem prepareGlyphData_value {handle : FontHandle} {g : PlacedGlyph} {s : Stream} :
    prepareGlyphData handle (QFFGlyphInfo.value g) s =
      ((if (qpStreamSetpos (handle.dataOffset + 5 + g.dataOffset % 262144) s).1 = true then some (g.w % 64) else none),
        (qpStreamSetpos (handle.dataOffset + 5 + g.dataOffset % 262144) s).2) := by
  rw [prepareGlyphData, value_offset, value_width]
  split <;> rename_i h <;> rw [h] <;> rfl

theorem findUnicodeGlyph_of_holds {handle : FontHandle} {codePoint : Nat} :
    ∀ {entries : List PlacedGlyph} {rounds : Nat} {s : Stream}, rounds ≤ entries.length →
      s.Holds s.position (entries.flatMap fun g => QFFGlyphInfo.write g true) →
      (∀ g ∈ entries.take rounds, g.codePoint.val ≠ codePoint) ∧ (findUnicodeGlyph handle codePoint rounds s).1 = none ∨
      ∃ g ∈ entries, g.codePoint.val = codePoint ∧ ∃ position,
        findUnicodeGlyph handle codePoint rounds s =
          prepareGlyphData handle (QFFGlyphInfo.value g) { s with position := position } := by
  intro entries
  induction entries with
  | nil =>
    intro rounds s hrounds _
    rw [List.length_nil, Nat.le_zero] at hrounds
    subst hrounds
    exact .inl ⟨fun g hg => (List.not_mem_nil hg).elim, rfl⟩
  | cons g entries ih =>
    intro rounds s hrounds hholds
    cases rounds with
    | zero => exact .inl ⟨fun g hg => (List.not_mem_nil hg).elim, rfl⟩
    | succ rounds =>
      rw [List.flatMap_cons] at hholds
      obtain ⟨hcode, hvalue⟩ := fields_write g
      rw [findUnicodeGlyph, qpStreamRead_of_holds hholds.left (length_write_true g)]
      dsimp only
      rw [hcode, hvalue]
      by_cases hfound : g.codePoint.val = codePoint
      · rw [if_pos hfound]
        exact .inr ⟨g, List.mem_cons_self, hfound, _, rfl⟩
      · rw [if_neg hfound]
        have hrest := hholds.right
        rw [length_write_true] at hrest
        have hnext := @ih rounds { s with position := s.position + 6 } (Nat.le_of_succ_le_succ hrounds)
          (hrest.move (s.position + 6))
        rcases hnext with ⟨hnone, hresult⟩ | ⟨g', hmem, hcode', position, hresult⟩
        · refine .inl ⟨fun g' hg' => ?_, hresult⟩
          rw [List.take_succ_cons, List.mem_cons] at hg'
          rcases hg' with rfl | hg'
          · exact hfound
          · exact hnone g' hg'
        · exact .inr ⟨g', List.mem_cons_of_mem g hmem, hcode', position, hresult⟩

/-! ## The descriptor -/

@[simp]
theorem length_descriptor (d : QFFFontDescriptor) : d.write.length = 25 := by
  simp [QFFFontDescriptor.write]

theorem parseFontDescriptor_write {d : QFFFontDescriptor} (htotal : d.totalFileSize < 4294967296)
    (hformat : d.format < 256) (hcompression : d.compression < 256) : parseFontDescriptor d.write =
      some ⟨d.lineHeight % 256, d.hasAsciiTable, d.unicodeGlyphCount % 65536, d.format, d.compression,
        d.totalFileSize⟩ := by
  have hcount : d.unicodeGlyphCount &&& 0xFFFF = d.unicodeGlyphCount % 65536 :=
    Nat.and_two_pow_sub_one_eq_mod d.unicodeGlyphCount 16
  have hheader : qgfValidateBlockHeader d.write 0x00 20 = true := by
    rw [QFFFontDescriptor.write]
    simp only [List.append_assoc]
    exact qgfValidateBlockHeader_blockHeader (by omega) _ (.inr rfl)
  have hascii : (if d.hasAsciiTable = true then 1 else 0) < 256 := by split <;> omega
  have hfields : field d.write 5 3 = 0x464651 ∧ field d.write 8 1 = 1 ∧ field d.write 9 4 = d.totalFileSize ∧
      field d.write 13 4 = 4294967295 - d.totalFileSize ∧ field d.write 17 1 = d.lineHeight % 256 ∧
      field d.write 18 1 = (if d.hasAsciiTable = true then 1 else 0) ∧
      field d.write 19 2 = d.unicodeGlyphCount % 65536 ∧ field d.write 21 1 = d.format ∧
      field d.write 23 1 = d.compression := by
    rw [QFFFontDescriptor.write, hcount]
    simp only [List.append_assoc]
    refine ⟨?_, ?_, ?_, ?_, ?_, ?_, ?_, ?_, ?_⟩ <;>
      simp only [field_skip, field_here, length_blockHeader, length_o8, length_o16, length_o24, length_o32, Nat.reduceLeDiff,
        Nat.reduceSub]
    · rw [o24_eq, leNat_leBytes_of_lt (by omega)]
    · rw [o8, leNat_leBytes_of_lt (by omega)]
    · rw [o32, leNat_leBytes_of_lt (by omega)]
    · rw [o32, leNat_leBytes_of_lt (by omega)]
    · rw [o8, leNat_leBytes]
      rfl
    · rw [o8, leNat_leBytes_of_lt (by omega)]
    · rw [o16, leNat_leBytes_of_lt (by omega)]
    · rw [o8, leNat_leBytes_of_lt (by omega)]
    · rw [o8, leNat_leBytes_of_lt (by omega)]
  obtain ⟨hmagic, hversion, hsize, hneg, hheight, htable, hglyphs, hfmt, hcomp⟩ := hfields
  rw [parseFontDescriptor, hheader, hmagic, hversion, hsize, hneg, hheight, htable, hglyphs, hfmt, hcomp]
  cases d.hasAsciiTable <;> simp

theorem qffReadFontDescriptor_of_holds {d : QFFFontDescriptor} {s : Stream} (h : s.Holds 0 d.write)
    (htotal : d.totalFileSize < 4294967296) (hformat : d.format < 256) (hcompression : d.compression < 256) :
    qffReadFontDescriptor s =
      (some ⟨d.lineHeight % 256, d.hasAsciiTable, d.unicodeGlyphCount % 65536, d.format, d.compression,
        d.totalFileSize⟩, { s with position := 25 }) := by
  have hwithin := h.within
  rw [length_descriptor] at hwithin
  rw [qffReadFontDescriptor, qpStreamSetpos_of_le (by omega) (by omega)]
  rw [qpStreamRead_of_holds (h.move 0) (length_descriptor d)]
  dsimp only
  rw [parseFontDescriptor_write htotal hformat hcompression]

theorem sameFile_qffReadFontDescriptor (s : Stream) : SameFile s (qffReadFontDescriptor s).2 := by
  have hread := (sameFile_memSeek (asInt32 0) s).trans (sameFile_qpStreamRead 25 (qpStreamSetpos 0 s).2)
  rw [qffReadFontDescriptor]
  split <;> rename_i heq <;> rw [heq] at hread <;> exact hread

theorem sameFile_qffValidateStream (s : Stream) : SameFile s (qffValidateStream s).2 := by
  have hdesc := sameFile_qffReadFontDescriptor s
  have hascii : ∀ s, SameFile s (qffValidateAsciiDescriptor s).2 := by
    intro s
    have hread := sameFile_qpStreamRead 290 s
    rw [qffValidateAsciiDescriptor]
    split <;> rename_i heq <;> rw [heq] at hread <;> exact hread
  have hunicode : ∀ n s, SameFile s (qffValidateUnicodeDescriptor n s).2 := by
    intro n s
    have hread := sameFile_qpStreamRead 5 s
    rw [qffValidateUnicodeDescriptor]
    split <;> rename_i heq <;> rw [heq] at hread
    · exact hread
    · split
      · exact hread.trans (sameFile_memSeek _ _)
      · exact hread
  rw [qffValidateStream]
  split <;> rename_i heq <;> rw [heq] at hdesc
  · exact hdesc
  · rename_i info s'
    by_cases htable : info.hasAsciiTable = true
    · simp only [htable, ↓reduceIte]
      split
      · exact hdesc.trans ((hascii s').trans (hunicode _ _))
      · exact hdesc.trans (hascii s')
    · simp only [htable, Bool.false_eq_true, ↓reduceIte]
      split
      · exact hdesc.trans (hunicode _ s')
      · exact hdesc

/-! ## The file -/

section

variable {format : ValidFormat} {img : ConvertedImage format} {useRle : Bool} {font : Font} {cfg : PainterConfig}

def finalDescriptor (img : ConvertedImage format) (useRle : Bool) (font : Font) : QFFFontDescriptor where
  totalFileSize := 25 + (fontBlocks img (writtenGlyphs img useRle font)).length
  lineHeight := font.glyphHeight
  hasAsciiTable := includesAscii (writtenGlyphs img useRle font)
  unicodeGlyphCount := (unicodeGlyphsOf (writtenGlyphs img useRle font)).length
  format := format.imageFormatByte
  compression := if usesRle img useRle font = true then 0x01 else 0x00

theorem saveToQff_eq : saveToQff img useRle font =
    if 4294967296 ≤ 25 + (fontBlocks img (writtenGlyphs img useRle font)).length then none
    else some ((finalDescriptor img useRle font).write ++ fontBlocks img (writtenGlyphs img useRle font)) := by
  simp only [saveToQff, List.length_append, length_descriptor, List.drop_append, List.drop_eq_nil_of_le, Nat.le_refl,
    List.nil_append, Nat.sub_self, List.drop_zero]
  rfl

theorem finalDescriptor_bounds : (finalDescriptor img useRle font).format < 256 ∧
    (finalDescriptor img useRle font).compression < 256 := by
  refine ⟨format.imageFormatByte_lt, ?_⟩
  rw [finalDescriptor]
  dsimp only
  split <;> omega

def fileStream (file : List UInt8) (position : Nat) : Stream := ⟨file, file.length, position⟩

theorem fileStream_holds {pre bs post : List UInt8} (position : Nat) :
    (fileStream (pre ++ bs ++ post) position).Holds pre.length bs where
  bytes := by simp [fileStream]
  within := by simp only [fileStream, List.length_append]; omega

/-- The handle of the file, with the stream at any position. -/
def expectedHandle (img : ConvertedImage format) (useRle : Bool) (font : Font) (file : List UInt8) (position : Nat) :
    FontHandle where
  hasAsciiTable := includesAscii (writtenGlyphs img useRle font)
  numUnicodeGlyphs := (unicodeGlyphsOf (writtenGlyphs img useRle font)).length % 65536
  bpp := format.bpp
  hasPalette := format.hasPalette
  stream := fileStream file position

section

variable {file : List UInt8}

theorem saveToQff_some (h : saveToQff img useRle font = some file) :
    (finalDescriptor img useRle font).totalFileSize = file.length ∧ file.length < 4294967296 ∧
      file = (finalDescriptor img useRle font).write ++ fontBlocks img (writtenGlyphs img useRle font) := by
  rw [saveToQff_eq] at h
  split at h
  · cases h
  · rename_i hlt
    cases h
    refine ⟨?_, ?_, rfl⟩
    · rw [List.length_append, length_descriptor]
      rfl
    · rw [List.length_append, length_descriptor]
      omega

theorem readDescriptor_file (h : saveToQff img useRle font = some file) {s : Stream} (hbuffer : s.buffer = file)
    (hlength : 25 ≤ s.length) : qffReadFontDescriptor s =
      (some ⟨font.glyphHeight % 256, includesAscii (writtenGlyphs img useRle font),
        (unicodeGlyphsOf (writtenGlyphs img useRle font)).length % 65536, format.imageFormatByte,
        (finalDescriptor img useRle font).compression, file.length⟩, { s with position := 25 }) := by
  obtain ⟨htotal, hlt, hfile⟩ := saveToQff_some h
  have hholds : s.Holds 0 (finalDescriptor img useRle font).write := by
    constructor
    · rw [hbuffer, hfile, List.drop_zero, List.take_left]
    · rw [length_descriptor]
      omega
  have hread := qffReadFontDescriptor_of_holds hholds (by rw [htotal]; exact hlt)
    finalDescriptor_bounds.1 finalDescriptor_bounds.2
  rw [htotal] at hread
  exact hread

theorem length_file (h : saveToQff img useRle font = some file) : 25 ≤ file.length := by
  obtain ⟨-, -, hfile⟩ := saveToQff_some h
  rw [hfile, List.length_append, length_descriptor]
  omega

theorem totalSize_file (h : saveToQff img useRle font = some file) :
    qffGetTotalSize (qpMakeMemoryStream file 25) = file.length := by
  rw [qffGetTotalSize, readDescriptor_file h rfl (by simp [qpMakeMemoryStream])]

/-- A file that is loaded is one whose size is a positive `int32_t`, and the handle says what was written, up to the
width of the number of glyphs. -/
theorem qpLoadFontMem_some (hsave : saveToQff img useRle font = some file) {handle : FontHandle}
    (h : qpLoadFontMem cfg file = some handle) :
    file.length < 2147483648 ∧ handle = expectedHandle img useRle font file 25 := by
  have hlength := length_file hsave
  have hbound := (saveToQff_some hsave).2.1
  rw [qpLoadFontMem, totalSize_file hsave] at h
  by_cases hlt : file.length < 2147483648
  · refine ⟨hlt, ?_⟩
    rw [asInt32_of_lt hlt] at h
    have hsame := sameFile_qffValidateStream (qpMakeMemoryStream file file.length)
    generalize qffValidateStream (qpMakeMemoryStream file file.length) = result at h hsame
    obtain ⟨ok, s⟩ := result
    obtain ⟨hbuffer, hlen⟩ := hsame
    dsimp only at h hbuffer hlen
    split at h
    · cases h
    · have hlen' : s.length = file.length := hlen
      rw [readDescriptor_file hsave hbuffer (by omega)] at h
      obtain ⟨isPanelNative, hformat⟩ := qgfParseFormat_imageFormatByte format
      simp only [hformat, Option.getD_some] at h
      split at h
      · cases h
        rw [expectedHandle, fileStream, hbuffer, hlen']
        rfl
      · cases h
  · have hneg : asInt32 file.length < 0 := by
      rw [asInt32, BitVec.toInt_eq_toNat_cond, BitVec.toNat_ofNat]
      omega
    have hread : qffReadFontDescriptor (qpMakeMemoryStream file (asInt32 file.length)) =
        (none, qpMakeMemoryStream file (asInt32 file.length)) := by
      have hset : qpStreamSetpos 0 (qpMakeMemoryStream file (asInt32 file.length)) =
          (false, qpMakeMemoryStream file (asInt32 file.length)) := by
        rw [qpStreamSetpos, asInt32_of_lt (by omega), memSeek, if_pos]
        exact .inr hneg
      have hend : (qpMakeMemoryStream file (asInt32 file.length)).length ≤
          (qpMakeMemoryStream file (asInt32 file.length)).position := Int.le_of_lt hneg
      rw [qffReadFontDescriptor, hset, qpStreamRead_at_end hend (by omega)]
    simp [qffValidateStream, hread] at h

/-! ## The blocks in the file -/

def asciiBlock (img : ConvertedImage format) (useRle : Bool) (font : Font) : List UInt8 :=
  if includesAscii (writtenGlyphs img useRle font) = true then
    asciiTable ((writtenGlyphs img useRle font).filter fun g => isAscii g.codePoint) else []

def unicodeBlock (img : ConvertedImage format) (useRle : Bool) (font : Font) : List UInt8 :=
  if unicodeGlyphsOf (writtenGlyphs img useRle font) ≠ [] then
    unicodeTable (unicodeGlyphsOf (writtenGlyphs img useRle font)) else []

def paletteBlock (img : ConvertedImage format) : List UInt8 :=
  if format.hasPalette = true then paletteDescriptor img.palette else []

theorem fontBlocks_eq : fontBlocks img (writtenGlyphs img useRle font) = asciiBlock img useRle font ++
    unicodeBlock img useRle font ++ paletteBlock img ++ fontDataDescriptor (glyphImages img useRle font).flatten := by
  rw [← writtenGlyphs_bytes]
  rfl

theorem isAscii_iff {n : CodePoint} : isAscii n = true ↔ n ∈ asciiCodePoints := by
  rw [isAscii, Bool.and_eq_true, decide_eq_true_eq, decide_eq_true_eq, asciiCodePoints, List.mem_map]
  constructor
  · intro h
    refine ⟨n.val - 0x20, List.mem_range.mpr (by omega), Fin.ext ?_⟩
    have hn := n.isLt
    rw [Fin.val_ofNat, Nat.mod_eq_of_lt (by omega)]
    omega
  · rintro ⟨m, hm, rfl⟩
    rw [List.mem_range] at hm
    rw [Fin.val_ofNat, Nat.mod_eq_of_lt (by omega)]
    omega

theorem getElem?_asciiCodePoints {n : CodePoint} (h : isAscii n = true) : asciiCodePoints[n.val - 0x20]? = some n := by
  rw [isAscii, Bool.and_eq_true, decide_eq_true_eq, decide_eq_true_eq] at h
  have hn := n.isLt
  rw [asciiCodePoints, List.getElem?_map, List.getElem?_range (by omega), Option.map_some]
  refine congrArg some (Fin.ext ?_)
  rw [Fin.val_ofNat, Nat.mod_eq_of_lt (by omega)]
  omega

theorem writtenGlyphs_sorted (h : font.Ordered) :
    (writtenGlyphs img useRle font).Pairwise fun g g' => g.codePoint < g'.codePoint := by
  have hsorted := h.sorted
  rw [← @writtenGlyphs_codePoints format img useRle font, List.pairwise_map] at hsorted
  exact hsorted

theorem eq_of_codePoint (h : font.Ordered) {g g' : PlacedGlyph} (hg : g ∈ writtenGlyphs img useRle font)
    (hg' : g' ∈ writtenGlyphs img useRle font) (heq : g.codePoint = g'.codePoint) : g = g' := by
  have hnodup : ((writtenGlyphs img useRle font).map PlacedGlyph.codePoint).Nodup := by
    rw [writtenGlyphs_codePoints]
    exact h.sorted.imp fun hlt => ne_of_lt hlt
  exact List.inj_on_of_nodup_map hnodup hg hg' heq

def asciiEntry (glyphs : List PlacedGlyph) (n : CodePoint) : List UInt8 :=
  match glyphs.find? fun g => decide (g.codePoint = n) with
  | some g => QFFGlyphInfo.write g false
  | none => []

theorem asciiEntry_of_mem (h : font.Ordered) {g : PlacedGlyph} (hg : g ∈ writtenGlyphs img useRle font)
    (hascii : isAscii g.codePoint = true) :
    asciiEntry ((writtenGlyphs img useRle font).filter fun g => isAscii g.codePoint) g.codePoint =
      QFFGlyphInfo.write g false := by
  rw [asciiEntry]
  cases hfind : ((writtenGlyphs img useRle font).filter fun g => isAscii g.codePoint).find?
      fun g' => decide (g'.codePoint = g.codePoint) with
  | none =>
    have hnone := List.find?_eq_none.mp hfind g (List.mem_filter.mpr ⟨hg, hascii⟩)
    simp at hnone
  | some g' =>
    have hmem := (List.mem_filter.mp (List.mem_of_find?_eq_some hfind)).1
    have hcode : g'.codePoint = g.codePoint := by simpa using List.find?_some hfind
    rw [eq_of_codePoint h hmem hg hcode]

theorem exists_asciiGlyph (hall : includesAscii (writtenGlyphs img useRle font) = true)
    {n : CodePoint} (hn : n ∈ asciiCodePoints) :
    ∃ g ∈ writtenGlyphs img useRle font, g.codePoint = n ∧ isAscii g.codePoint = true := by
  rw [includesAscii, List.all_eq_true] at hall
  obtain ⟨g, hg, hcode⟩ := List.any_eq_true.mp (hall n hn)
  have hcode := of_decide_eq_true hcode
  exact ⟨g, hg, hcode, by rw [hcode]; exact isAscii_iff.mpr hn⟩

theorem asciiBlock_eq (hall : includesAscii (writtenGlyphs img useRle font) = true) :
    asciiBlock img useRle font = blockHeader 0x01 (95 * 3) ++
      asciiCodePoints.flatMap (asciiEntry ((writtenGlyphs img useRle font).filter fun g => isAscii g.codePoint)) :=
  if_pos hall

theorem length_asciiEntry (h : font.Ordered) (hall : includesAscii (writtenGlyphs img useRle font) = true) :
    ∀ n ∈ asciiCodePoints, (asciiEntry ((writtenGlyphs img useRle font).filter fun g => isAscii g.codePoint) n).length = 3 := by
  intro n hn
  obtain ⟨g, hg, rfl, hascii⟩ := exists_asciiGlyph hall hn
  rw [asciiEntry_of_mem h hg hascii, length_write_false]

theorem length_flatMap_of_size {β : Type} {enc : β → List UInt8} {size : Nat} {l : List β}
    (hsize : ∀ a ∈ l, (enc a).length = size) : (l.flatMap enc).length = l.length * size := by
  induction l with
  | nil => simp
  | cons a l ih =>
    rw [List.flatMap_cons, List.length_append, hsize a List.mem_cons_self,
      ih fun b hb => hsize b (List.mem_cons_of_mem a hb), List.length_cons, Nat.succ_mul, Nat.add_comm]

theorem length_asciiBlock (h : font.Ordered) : (asciiBlock img useRle font).length =
    if includesAscii (writtenGlyphs img useRle font) = true then 290 else 0 := by
  by_cases hall : includesAscii (writtenGlyphs img useRle font) = true
  · rw [asciiBlock_eq hall, List.length_append, length_blockHeader, length_flatMap_of_size (length_asciiEntry h hall),
      if_pos hall]
    rfl
  · rw [asciiBlock, if_neg hall, if_neg hall]
    rfl

theorem unicodeBlock_eq (h : font.Ordered) (hsome : unicodeGlyphsOf (writtenGlyphs img useRle font) ≠ []) :
    unicodeBlock img useRle font = blockHeader 0x02 ((unicodeGlyphsOf (writtenGlyphs img useRle font)).length * 6) ++
      (unicodeGlyphsOf (writtenGlyphs img useRle font)).flatMap fun g => QFFGlyphInfo.write g true := by
  have hsorted : (unicodeGlyphsOf (writtenGlyphs img useRle font)).Pairwise
      fun g g' => g.codePoint ≤ g'.codePoint :=
    ((writtenGlyphs_sorted h).filter _).imp fun hlt => le_of_lt hlt
  rw [unicodeBlock, if_pos hsome, unicodeTable, hsorted.insertionSort_eq]

theorem length_unicodeBlock (h : font.Ordered) : (unicodeBlock img useRle font).length =
    if 0 < (unicodeGlyphsOf (writtenGlyphs img useRle font)).length then
      5 + (unicodeGlyphsOf (writtenGlyphs img useRle font)).length * 6 else 0 := by
  by_cases hsome : unicodeGlyphsOf (writtenGlyphs img useRle font) = []
  · rw [unicodeBlock, hsome, if_neg (not_not.mpr rfl)]
    rfl
  · rw [unicodeBlock_eq h hsome, List.length_append, length_blockHeader,
      length_flatMap_of_size fun g _ => length_write_true g, if_pos (List.length_pos_of_ne_nil hsome)]

theorem length_paletteBlock : (paletteBlock img).length =
    if format.hasPalette = true then 5 + 2 ^ format.bpp * 3 else 0 := by
  rw [paletteBlock]
  split
  · rw [paletteDescriptor, List.length_append, length_blockHeader, @length_flatMap_of_size _ _ 3, img.palette_length,
      format.numColors_eq]
    intro e _
    simp
  · rfl

/-! ## The lookup in the file -/

def dataStart (img : ConvertedImage format) (useRle : Bool) (font : Font) : Nat :=
  25 + (asciiBlock img useRle font).length + (unicodeBlock img useRle font).length + (paletteBlock img).length + 5

theorem file_eq (hsave : saveToQff img useRle font = some file) : file = (finalDescriptor img useRle font).write ++
    asciiBlock img useRle font ++ unicodeBlock img useRle font ++ paletteBlock img ++
      blockHeader 0x04 (glyphImages img useRle font).flatten.length ++ (glyphImages img useRle font).flatten := by
  obtain ⟨-, -, hfile⟩ := saveToQff_some hsave
  rw [hfile, fontBlocks_eq, fontDataDescriptor]
  simp only [List.append_assoc]

theorem drop_file (hsave : saveToQff img useRle font = some file) :
    file.length = dataStart img useRle font + (glyphImages img useRle font).flatten.length ∧
      file.drop (dataStart img useRle font) = (glyphImages img useRle font).flatten := by
  have hfile := file_eq hsave
  rw [hfile]
  constructor
  · simp only [List.length_append, length_descriptor, length_blockHeader, dataStart]
  · refine List.drop_left' ?_
    simp only [List.length_append, length_descriptor, length_blockHeader, dataStart]

theorem drop_file_glyph (hsave : saveToQff img useRle font = some file) (i : Nat) :
    file.drop (dataStart img useRle font + ((glyphImages img useRle font).take i).flatten.length) =
      ((glyphImages img useRle font).drop i).flatten := by
  rw [← List.drop_drop, (drop_file hsave).2]
  have hsplit : (glyphImages img useRle font).flatten =
      ((glyphImages img useRle font).take i).flatten ++ ((glyphImages img useRle font).drop i).flatten := by
    rw [← List.flatten_append, List.take_append_drop]
  rw [hsplit, List.drop_left]

theorem asciiBlock_holds (hsave : saveToQff img useRle font = some file) (position : Nat) :
    (fileStream file position).Holds 25 (asciiBlock img useRle font) := by
  have hfile := file_eq hsave
  have hholds := @fileStream_holds (finalDescriptor img useRle font).write (asciiBlock img useRle font)
    (unicodeBlock img useRle font ++ paletteBlock img ++
      blockHeader 0x04 (glyphImages img useRle font).flatten.length ++ (glyphImages img useRle font).flatten) position
  rw [length_descriptor] at hholds
  rw [hfile]
  simpa only [List.append_assoc] using hholds

theorem unicodeBlock_holds (hsave : saveToQff img useRle font = some file) (position : Nat) :
    (fileStream file position).Holds (25 + (asciiBlock img useRle font).length) (unicodeBlock img useRle font) := by
  have hfile := file_eq hsave
  have hholds := @fileStream_holds ((finalDescriptor img useRle font).write ++ asciiBlock img useRle font)
    (unicodeBlock img useRle font) (paletteBlock img ++
      blockHeader 0x04 (glyphImages img useRle font).flatten.length ++ (glyphImages img useRle font).flatten) position
  rw [List.length_append, length_descriptor] at hholds
  rw [hfile]
  simpa only [List.append_assoc] using hholds

theorem fileStream_setpos (hlt : file.length < 2147483648) {offset position : Nat} (hle : offset ≤ file.length) :
    qpStreamSetpos offset (fileStream file position) = (true, fileStream file offset) := by
  have hle' : (offset : Int) ≤ (fileStream file position).length := by
    dsimp only [fileStream]
    omega
  rw [qpStreamSetpos_of_le (by omega) hle']
  rfl

theorem dataOffset_expectedHandle (h : font.Ordered) (position : Nat) :
    (expectedHandle img useRle font file position).dataOffset = 25 + (asciiBlock img useRle font).length +
      (if 0 < (unicodeGlyphsOf (writtenGlyphs img useRle font)).length % 65536 then
        5 + (unicodeGlyphsOf (writtenGlyphs img useRle font)).length % 65536 * 6 else 0) +
      (paletteBlock img).length := by
  rw [length_asciiBlock h, length_paletteBlock]
  rfl

theorem dataOffset_le (h : font.Ordered) (position : Nat) :
    (expectedHandle img useRle font file position).dataOffset + 5 ≤ dataStart img useRle font ∧
      ((unicodeGlyphsOf (writtenGlyphs img useRle font)).length < 65536 ↔
        (expectedHandle img useRle font file position).dataOffset + 5 = dataStart img useRle font) := by
  rw [dataOffset_expectedHandle h, dataStart, length_unicodeBlock h]
  generalize (unicodeGlyphsOf (writtenGlyphs img useRle font)).length = count
  split <;> split <;> omega

/-- Where the lookup of a glyph of the font ends. It fails only where there are too many of them. -/
theorem prepareGlyph_eq (h : font.Ordered) (hsave : saveToQff img useRle font = some file)
    (hlt : file.length < 2147483648) {i : Nat} {g : PlacedGlyph} (hg : (writtenGlyphs img useRle font)[i]? = some g)
    (position : Nat) :
    (65536 ≤ (unicodeGlyphsOf (writtenGlyphs img useRle font)).length ∧
      (prepareGlyphForRender (expectedHandle img useRle font file position) g.codePoint.val).1 = none) ∨
    ∃ position', prepareGlyphForRender (expectedHandle img useRle font file position) g.codePoint.val =
      prepareGlyphData (expectedHandle img useRle font file position) (QFFGlyphInfo.value g)
        (fileStream file position') := by
  have hmem := List.mem_of_getElem? hg
  rw [prepareGlyphForRender]
  by_cases hascii : 0x20 ≤ g.codePoint.val ∧ g.codePoint.val < 0x7F ∧
      (expectedHandle img useRle font file position).hasAsciiTable = true
  · right
    obtain ⟨hlow, hhigh, hall⟩ := hascii
    have hisAscii : isAscii g.codePoint = true := by
      rw [isAscii, Bool.and_eq_true, decide_eq_true_eq, decide_eq_true_eq]
      omega
    have htable := asciiBlock_holds hsave (25 + 5 + (g.codePoint.val - 0x20) * 3)
    rw [asciiBlock_eq hall] at htable
    have hentries := htable.right
    rw [length_blockHeader] at hentries
    have hentry := hentries.entry (length_asciiEntry h hall) (getElem?_asciiCodePoints hisAscii)
    rw [asciiEntry_of_mem h hmem hisAscii] at hentry
    have hwithin := hentry.within
    rw [length_write_false] at hwithin
    dsimp only [fileStream] at hwithin
    rw [if_pos ⟨hlow, hhigh, hall⟩]
    have hset := @fileStream_setpos file hlt (25 + 5 + (g.codePoint.val - 0x20) * 3) position (by omega)
    rw [expectedHandle, hset]
    dsimp only
    rw [qpStreamRead_of_holds hentry (length_write_false g)]
    dsimp only
    have hfield : field (QFFGlyphInfo.write g false) 0 3 = QFFGlyphInfo.value g := by
      have hhere := @field_here (QFFGlyphInfo.write g false) [] 3 (length_write_false g)
      rw [List.append_nil, leNat_write] at hhere
      exact hhere
    rw [hfield]
    exact ⟨_, rfl⟩
  · rw [if_neg hascii]
    have hunicode : g ∈ unicodeGlyphsOf (writtenGlyphs img useRle font) := by
      refine List.mem_filter.mpr ⟨hmem, ?_⟩
      rw [Bool.not_eq_true', Bool.and_eq_false_iff, isAscii, Bool.and_eq_false_iff, decide_eq_false_iff_not,
        decide_eq_false_iff_not, ← Bool.not_eq_true (includesAscii _)]
      by_contra hboth
      simp only [not_or, not_not] at hboth
      exact hascii ⟨hboth.1.1, by omega, hboth.2⟩
    have hne := List.ne_nil_of_mem hunicode
    have htable := unicodeBlock_holds hsave (25 + (asciiBlock img useRle font).length + 5)
    rw [unicodeBlock_eq h hne] at htable
    have hentries := htable.right
    rw [length_blockHeader] at hentries
    have hwithin := hentries.within
    dsimp only [fileStream] at hwithin
    have hset := @fileStream_setpos file hlt (25 + (asciiBlock img useRle font).length + 5) position (by omega)
    rw [length_asciiBlock h] at hset hentries
    rw [expectedHandle]
    dsimp only
    rw [hset]
    dsimp only
    have hfind := @findUnicodeGlyph_of_holds (expectedHandle img useRle font file position) g.codePoint.val
      (unicodeGlyphsOf (writtenGlyphs img useRle font))
      ((unicodeGlyphsOf (writtenGlyphs img useRle font)).length % 65536) _ (Nat.mod_le _ _) hentries
    rcases hfind with ⟨hnone, hresult⟩ | ⟨g', hmem', hcode, position', hresult⟩
    · refine .inl ⟨?_, hresult⟩
      by_contra hcount
      rw [Nat.mod_eq_of_lt (by omega), List.take_length] at hnone
      exact hnone g hunicode rfl
    · right
      have hsame : g' = g := eq_of_codePoint h (List.mem_filter.mp hmem').1 hmem (Fin.ext hcode)
      rw [hsame] at hresult
      exact ⟨position', hresult⟩

theorem prepareGlyph_none (h : font.Ordered) (hsave : saveToQff img useRle font = some file)
    (hlt : file.length < 2147483648) {codePoint : Nat} (hother : ∀ g ∈ font.glyphData, g.codePoint.val ≠ codePoint)
    (position : Nat) :
    (prepareGlyphForRender (expectedHandle img useRle font file position) codePoint).1 = none := by
  have hwritten : ∀ g ∈ writtenGlyphs img useRle font, g.codePoint.val ≠ codePoint := by
    intro g hg
    have hcode : g.codePoint ∈ font.glyphData.map GlyphInfo.codePoint := by
      rw [← @writtenGlyphs_codePoints format img useRle font]
      exact List.mem_map_of_mem hg
    obtain ⟨g', hg', heq⟩ := List.mem_map.mp hcode
    rw [← heq]
    exact hother g' hg'
  rw [prepareGlyphForRender]
  by_cases hascii : 0x20 ≤ codePoint ∧ codePoint < 0x7F ∧
      (expectedHandle img useRle font file position).hasAsciiTable = true
  · obtain ⟨hlow, hhigh, hall⟩ := hascii
    have hn : isAscii (⟨codePoint, by omega⟩ : CodePoint) = true := by
      rw [isAscii, Bool.and_eq_true, decide_eq_true_eq, decide_eq_true_eq]
      dsimp only
      omega
    obtain ⟨g, hg, hcode, -⟩ := exists_asciiGlyph hall (isAscii_iff.mp hn)
    exact absurd (congrArg Fin.val hcode) (hwritten g hg)
  · rw [if_neg hascii]
    split
    · rfl
    · rename_i s hset
      by_cases hsome : unicodeGlyphsOf (writtenGlyphs img useRle font) = []
      · rw [expectedHandle, hsome]
        rfl
      · have htable := unicodeBlock_holds hsave (25 + (asciiBlock img useRle font).length + 5)
        rw [unicodeBlock_eq h hsome] at htable
        have hentries := htable.right
        rw [length_blockHeader] at hentries
        have hwithin := hentries.within
        dsimp only [fileStream] at hwithin
        have hset' := @fileStream_setpos file hlt (25 + (asciiBlock img useRle font).length + 5) position (by omega)
        rw [length_asciiBlock h] at hset' hentries
        rw [expectedHandle] at hset
        dsimp only at hset
        rw [hset'] at hset
        cases hset
        have hfind := @findUnicodeGlyph_of_holds (expectedHandle img useRle font file position) codePoint
          (unicodeGlyphsOf (writtenGlyphs img useRle font))
          ((unicodeGlyphsOf (writtenGlyphs img useRle font)).length % 65536) _ (Nat.mod_le _ _) hentries
        rcases hfind with ⟨-, hresult⟩ | ⟨g', hmem', hcode, -, -⟩
        · exact hresult
        · exact absurd hcode (hwritten g' (List.mem_filter.mp hmem').1)

/-! ## All glyphs -/

/-- In the file of the font the lookup gives each glyph its width and leaves the stream at the first byte of its data,
those of the glyphs behind it following, and it finds no other glyph. -/
def FindsGlyphs (cfg : PainterConfig) (img : ConvertedImage format) (useRle : Bool) (font : Font) : Prop :=
  ∃ file handle, saveToQff img useRle font = some file ∧ qpLoadFontMem cfg file = some handle ∧ ∀ position,
    (∀ i g, font.glyphData[i]? = some g → ∃ s : Stream,
      prepareGlyphForRender { handle with stream := { handle.stream with position := position } } g.codePoint.val =
        (some g.w, s) ∧
      s.position ≤ file.length ∧ file.drop s.position = ((glyphImages img useRle font).drop i).flatten) ∧
    ∀ codePoint, (∀ g ∈ font.glyphData, g.codePoint.val ≠ codePoint) →
      (prepareGlyphForRender { handle with stream := { handle.stream with position := position } } codePoint).1 = none

/-- The widths have six bits, the offsets of the data eighteen, the number of glyphs in the unicode table sixteen, and
the size of the file is an `int32_t`. -/
structure FitsFields (img : ConvertedImage format) (useRle : Bool) (font : Font) : Prop where
  widths : ∀ g ∈ font.glyphData, g.w < 64
  offsets : ∀ i < font.glyphData.length, ((glyphImages img useRle font).take i).flatten.length < 262144
  count : (unicodeGlyphsOf (writtenGlyphs img useRle font)).length < 65536
  size : 25 + (fontBlocks img (writtenGlyphs img useRle font)).length < 2147483648

theorem FindsGlyphs.fits (h : font.Ordered) (hfinds : FindsGlyphs cfg img useRle font) :
    FitsFields img useRle font := by
  obtain ⟨file, handle, hsave, hload, hfound⟩ := hfinds
  obtain ⟨hlt, hhandle⟩ := qpLoadFontMem_some hsave hload
  subst hhandle
  obtain ⟨hlength, -⟩ := drop_file hsave
  -- each glyph is where the reader looks for it
  have hglyph : ∀ i g, font.glyphData[i]? = some g → g.w < 64 ∧
      ((glyphImages img useRle font).take i).flatten.length < 262144 ∧
      (unicodeGlyphsOf (writtenGlyphs img useRle font)).length < 65536 := by
    intro i g hg
    obtain ⟨s, hresult, hwithin, hdata⟩ := (hfound 0).1 i g hg
    obtain ⟨bytes, hwritten⟩ := @getElem?_writtenGlyphs format img useRle font i g hg
    have hresult' : prepareGlyphForRender (expectedHandle img useRle font file 0) g.codePoint.val = (some g.w, s) :=
      hresult
    rcases prepareGlyph_eq h hsave hlt hwritten 0 with ⟨-, hnone⟩ | ⟨position, hprepare⟩
    · rw [hresult'] at hnone
      cases hnone
    · rw [hresult', prepareGlyphData_value] at hprepare
      obtain ⟨hle, hiff⟩ := @dataOffset_le format img useRle font file h 0
      dsimp only at hprepare
      generalize hoffset : ((glyphImages img useRle font).take i).flatten.length = offset at hprepare hwritten
      have hsplit : (glyphImages img useRle font).flatten.length =
          offset + ((glyphImages img useRle font).drop i).flatten.length := by
        rw [← hoffset, ← List.length_append, ← List.flatten_append, List.take_append_drop]
      have hposition : s.position = dataStart img useRle font + offset := by
        have hrest := congrArg List.length hdata
        rw [List.length_drop] at hrest
        omega
      split at hprepare
      · rename_i hset
        obtain ⟨hwidth, hs⟩ := Prod.mk.inj hprepare
        have hwidth' : g.w = g.w % 64 := Option.some.inj hwidth
        have hsmall : (expectedHandle img useRle font file 0).dataOffset + 5 + offset % 262144 < 2147483648 := by
          omega
        have hpos := position_of_qpStreamSetpos hsmall (Prod.ext hset rfl)
        have hpos' : s.position = (expectedHandle img useRle font file 0).dataOffset + 5 + offset % 262144 :=
          (congrArg Stream.position hs).trans (congrArg Stream.position hpos)
        refine ⟨by omega, by omega, hiff.mpr (by omega)⟩
      · cases (Prod.mk.inj hprepare).1
  obtain ⟨g₀, hg₀⟩ := List.exists_mem_of_ne_nil _ h.nonempty
  obtain ⟨i₀, hi₀⟩ := List.mem_iff_getElem?.mp hg₀
  refine ⟨fun g hg => ?_, fun i hi => ?_, (hglyph i₀ g₀ hi₀).2.2, ?_⟩
  · obtain ⟨i, hi⟩ := List.mem_iff_getElem?.mp hg
    exact (hglyph i g hi).1
  · exact (hglyph i _ (List.getElem?_eq_getElem hi)).2.1
  · have htotal := (saveToQff_some hsave).1
    rw [← htotal] at hlt
    exact hlt

theorem validateAscii_file (h : font.Ordered) (hsave : saveToQff img useRle font = some file) :
    (if includesAscii (writtenGlyphs img useRle font) = true then qffValidateAsciiDescriptor (fileStream file 25)
      else (true, fileStream file 25)) = (true, fileStream file (25 + (asciiBlock img useRle font).length)) := by
  have hsize := @length_asciiBlock format img useRle font h
  by_cases hall : includesAscii (writtenGlyphs img useRle font) = true
  · have hholds := @asciiBlock_holds format img useRle font file hsave 25
    have hvalid := @qgfValidateBlockHeader_blockHeader 0x01 (95 * 3) (by omega)
      (asciiCodePoints.flatMap (asciiEntry ((writtenGlyphs img useRle font).filter fun g => isAscii g.codePoint))) 285
      (.inr rfl)
    rw [if_pos hall] at hsize
    rw [if_pos hall, qffValidateAsciiDescriptor, qpStreamRead_of_holds hholds hsize, hsize, asciiBlock_eq hall]
    dsimp only
    rw [hvalid]
    rfl
  · rw [if_neg hall] at hsize
    rw [if_neg hall, hsize]

theorem validateUnicode_file (h : font.Ordered) (hsave : saveToQff img useRle font = some file)
    (hsome : unicodeGlyphsOf (writtenGlyphs img useRle font) ≠ [])
    (hcount : (unicodeGlyphsOf (writtenGlyphs img useRle font)).length < 65536) :
    (qffValidateUnicodeDescriptor (unicodeGlyphsOf (writtenGlyphs img useRle font)).length
      (fileStream file (25 + (asciiBlock img useRle font).length))).1 = true := by
  have hholds := @unicodeBlock_holds format img useRle font file hsave (25 + (asciiBlock img useRle font).length)
  rw [unicodeBlock_eq h hsome] at hholds
  have hvalid := @qgfValidateBlockHeader_blockHeader 0x02 ((unicodeGlyphsOf (writtenGlyphs img useRle font)).length * 6)
    (by omega) [] ((unicodeGlyphsOf (writtenGlyphs img useRle font)).length * 6 : Nat) (.inr (by omega))
  rw [List.append_nil] at hvalid
  rw [qffValidateUnicodeDescriptor, qpStreamRead_of_holds hholds.left (length_blockHeader _ _)]
  dsimp only
  rw [if_pos hvalid]

theorem qffValidateStream_file (h : font.Ordered) (hsave : saveToQff img useRle font = some file)
    (hcount : (unicodeGlyphsOf (writtenGlyphs img useRle font)).length < 65536) :
    (qffValidateStream (fileStream file 0)).1 = true := by
  have hlength := length_file hsave
  have hread := @readDescriptor_file format img useRle font file hsave (fileStream file 0) rfl
    (by dsimp only [fileStream]; omega)
  rw [Nat.mod_eq_of_lt hcount] at hread
  have hascii := @validateAscii_file format img useRle font file h hsave
  rw [qffValidateStream, hread]
  dsimp only
  have hposition : ({ buffer := (fileStream file 0).buffer, length := (fileStream file 0).length, position := 25 } :
      Stream) = fileStream file 25 := rfl
  rw [hposition, hascii]
  dsimp only
  split
  · rename_i hsome
    exact validateUnicode_file h hsave (List.ne_nil_of_length_pos hsome.2) hcount
  · rfl

theorem qpLoadFontMem_file (h : font.Ordered) (hsave : saveToQff img useRle font = some file)
    (hlt : file.length < 2147483648) (hcount : (unicodeGlyphsOf (writtenGlyphs img useRle font)).length < 65536)
    (hcapable : qpInternalBppCapable cfg format.bpp = true) : ∃ handle, qpLoadFontMem cfg file = some handle := by
  have hvalid := qffValidateStream_file h hsave hcount
  have hsame := sameFile_qffValidateStream (fileStream file 0)
  have hlength := length_file hsave
  rw [qpLoadFontMem, totalSize_file hsave, asInt32_of_lt hlt]
  have hstream : qpMakeMemoryStream file file.length = fileStream file 0 := rfl
  rw [hstream]
  generalize qffValidateStream (fileStream file 0) = result at hvalid hsame
  obtain ⟨ok, s⟩ := result
  obtain ⟨hbuffer, hlen⟩ := hsame
  dsimp only [fileStream] at hvalid hbuffer hlen ⊢
  rw [if_neg (by simp [hvalid]), readDescriptor_file hsave hbuffer (by omega)]
  obtain ⟨isPanelNative, hformat⟩ := qgfParseFormat_imageFormatByte format
  simp only [hformat, Option.getD_some]
  rw [if_pos hcapable]
  exact ⟨_, rfl⟩

theorem FitsFields.finds (h : font.Ordered) (hcapable : qpInternalBppCapable cfg format.bpp = true)
    (hfits : FitsFields img useRle font) : FindsGlyphs cfg img useRle font := by
  obtain ⟨file, hsave⟩ : ∃ file, saveToQff img useRle font = some file := by
    have hsize := hfits.size
    rw [saveToQff_eq, if_neg (by omega)]
    exact ⟨_, rfl⟩
  have hlt : file.length < 2147483648 := (saveToQff_some hsave).1 ▸ hfits.size
  obtain ⟨handle, hload⟩ := qpLoadFontMem_file h hsave hlt hfits.count hcapable
  obtain ⟨-, rfl⟩ := qpLoadFontMem_some hsave hload
  refine ⟨file, _, hsave, hload, fun position => ⟨fun i g hg => ?_, fun codePoint hother => ?_⟩⟩
  · obtain ⟨bytes, hwritten⟩ := @getElem?_writtenGlyphs format img useRle font i g hg
    obtain ⟨hi, -⟩ := List.getElem?_eq_some_iff.mp hg
    have hwidth := hfits.widths g (List.mem_of_getElem? hg)
    have hoffset := hfits.offsets i hi
    have hstart := (@dataOffset_le format img useRle font file h position).2.mp hfits.count
    have hdrop := drop_file_glyph hsave i
    obtain ⟨hlength, -⟩ := drop_file hsave
    have hsplit : (glyphImages img useRle font).flatten.length = ((glyphImages img useRle font).take i).flatten.length +
        ((glyphImages img useRle font).drop i).flatten.length := by
      rw [← List.length_append, ← List.flatten_append, List.take_append_drop]
    rcases prepareGlyph_eq h hsave hlt hwritten position with ⟨hmany, -⟩ | ⟨position', hprepare⟩
    · exact absurd hfits.count (by omega)
    · rw [prepareGlyphData_value, hstart] at hprepare
      dsimp only at hprepare
      rw [Nat.mod_eq_of_lt hwidth, Nat.mod_eq_of_lt hoffset, fileStream_setpos hlt (by omega), if_pos rfl] at hprepare
      refine ⟨_, hprepare, ?_, hdrop⟩
      dsimp only [fileStream]
      omega
  · exact prepareGlyph_none h hsave hlt hother position

end

theorem glyph_lookup_iff {α : Type} [DecidableEq α] {splitColor : α} {pixels : List α} {height : Nat}
    {includeAsciiGlyphs : Bool} {unicodeGlyphs : List CodePoint}
    (hparse : parseImage splitColor pixels height includeAsciiGlyphs unicodeGlyphs = some font)
    (hcapable : qpInternalBppCapable cfg format.bpp = true) :
    FindsGlyphs cfg img useRle font ↔ FitsFields img useRle font :=
  ⟨fun h => h.fits (parseImage_ordered hparse), fun h => h.finds (parseImage_ordered hparse) hcapable⟩

end

def plainImage : ConvertedImage .mono2 where
  cropBytes _ w height := List.replicate (w * height) 0xFF
  palette := [(0, 0, 0), (0, 0, 0)]
  palette_length := rfl

def smallFont : Font := ⟨[⟨unicode 0x41, 0, 2⟩, ⟨unicode 0x2603, 2, 1⟩], 1⟩

theorem glyph_lookup_smallFont : FindsGlyphs ⟨false, false⟩ plainImage true smallFont := by
  have hparse : parseImage true [false, true] 2 false [0x2603, 0x41] = some smallFont := by decide +kernel
  refine (glyph_lookup_iff hparse rfl).mpr ⟨?_, ?_, ?_, ?_⟩ <;> decide +kernel

def wideFont : Font := ⟨[⟨unicode 0x41, 0, 64⟩], 1⟩

theorem wide_glyph_misread : ¬ ∀ (pixels : List Bool) (includeAsciiGlyphs : Bool) (unicodeGlyphs : List CodePoint)
    (font : Font), parseImage true pixels 2 includeAsciiGlyphs unicodeGlyphs = some font →
      FindsGlyphs ⟨false, false⟩ plainImage false font := by
  intro h
  have hparse : parseImage true (List.replicate 63 false) 2 false [0x41] = some wideFont := by decide +kernel
  have hfits := (h _ _ _ _ hparse).fits (parseImage_ordered hparse)
  exact absurd (hfits.widths _ List.mem_cons_self) (by decide)

end Painter
end VialQmk
