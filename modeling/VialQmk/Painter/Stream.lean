import VialQmk.Lib.LittleEndian
import VialQmk.Painter.Codec

/-!
# Painter.Stream

What the image and the font files share: the memory streams of `qp_stream.c`, the block headers and the formats.
-/

namespace VialQmk
namespace Painter

open Lib

/-- `qp_memory_stream_t`, without the flag that is set at the end. -/
structure Stream where
  buffer : List UInt8
  length : Int
  position : Nat
deriving DecidableEq, Repr

def qpMakeMemoryStream (buffer : List UInt8) (length : Int) : Stream := ⟨buffer, length, 0⟩

def asInt32 (n : Nat) : Int := (BitVec.ofNat 32 n).toInt

def memGet (s : Stream) : Option UInt8 × Stream :=
  if s.length ≤ s.position then (none, s)
  else (some (s.buffer.getD s.position 0), { s with position := s.position + 1 })

/-- The answer is whether the position is in the stream; behind its last byte is. -/
def memSeek (position : Int) (s : Stream) : Bool × Stream :=
  if position < 0 ∨ s.length < position then (false, s) else (true, { s with position := position.toNat })

def qpStreamSetpos (offset : Nat) (s : Stream) : Bool × Stream := memSeek (asInt32 offset) s

def qpStreamSkip (offset : Nat) (s : Stream) : Bool × Stream := memSeek (s.position + asInt32 offset) s

def qpStreamReadBytes : Nat → Stream → List UInt8 × Stream
  | 0, s => ([], s)
  | size + 1, s =>
    match memGet s with
    | (none, s) => ([], s)
    | (some b, s) =>
      let (bs, s) := qpStreamReadBytes size s
      (b :: bs, s)

/-- `qp_stream_read` of one member: `none` unless it is there as a whole. -/
def qpStreamRead (size : Nat) (s : Stream) : Option (List UInt8) × Stream :=
  let (bs, s) := qpStreamReadBytes size s
  (if bs.length = size then some bs else none, s)

structure Stream.Holds (s : Stream) (position : Nat) (bs : List UInt8) : Prop where
  bytes : (s.buffer.drop position).take bs.length = bs
  within : (position + bs.length : Int) ≤ s.length

namespace Stream

variable {s : Stream} {bs cs : List UInt8} {position : Nat}

theorem Holds.left (h : s.Holds position (bs ++ cs)) : s.Holds position bs where
  bytes := by
    have hbytes := congrArg (List.take bs.length) h.bytes
    rw [List.take_take, List.length_append, Nat.min_eq_left (Nat.le_add_right _ _), List.take_left] at hbytes
    exact hbytes
  within := by
    have hwithin := h.within
    rw [List.length_append] at hwithin
    omega

theorem Holds.right (h : s.Holds position (bs ++ cs)) : s.Holds (position + bs.length) cs where
  bytes := by
    have hbytes := congrArg (List.drop bs.length) h.bytes
    rw [List.drop_take, List.drop_drop, List.length_append, Nat.add_sub_cancel_left, List.drop_left] at hbytes
    exact hbytes
  within := by
    have hwithin := h.within
    rw [List.length_append] at hwithin
    omega

theorem Holds.move (h : s.Holds position bs) (position' : Nat) :
    ({ s with position := position' } : Stream).Holds position bs :=
  ⟨h.bytes, h.within⟩

theorem Holds.entry {β : Type} {enc : β → List UInt8} {size : Nat} : ∀ {l : List β} {position i : Nat} {a : β},
    (∀ a ∈ l, (enc a).length = size) → s.Holds position (l.flatMap enc) → l[i]? = some a →
      s.Holds (position + i * size) (enc a) := by
  intro l
  induction l with
  | nil => intro position i a _ _ ha; cases ha
  | cons b l ih =>
    intro position i a hsize h ha
    rw [List.flatMap_cons] at h
    cases i with
    | zero =>
      cases ha
      rw [Nat.zero_mul, Nat.add_zero]
      exact h.left
    | succ i =>
      have hrest := h.right
      rw [hsize b List.mem_cons_self] at hrest
      have hentry := ih (fun a ha => hsize a (List.mem_cons_of_mem b ha)) hrest ha
      rw [Nat.succ_mul, Nat.add_comm (i * size), ← Nat.add_assoc]
      exact hentry

end Stream

theorem qpStreamReadBytes_of_holds : ∀ {bs : List UInt8} {s : Stream}, s.Holds s.position bs →
    qpStreamReadBytes bs.length s = (bs, { s with position := s.position + bs.length }) := by
  intro bs
  induction bs with
  | nil => intro s _; rfl
  | cons b bs ih =>
    intro s h
    have hcons : s.Holds s.position ([b] ++ bs) := h
    have hwithin := h.within
    rw [List.length_cons] at hwithin
    have hget : s.buffer.getD s.position 0 = b := by
      have hbytes := hcons.left.bytes
      rw [List.length_singleton] at hbytes
      rw [List.getD_eq_getElem?_getD]
      have hhead := congrArg List.head? hbytes
      rw [List.head?_take, if_neg (by omega), List.head?_drop] at hhead
      rw [hhead]
      rfl
    have hmem : memGet s = (some b, { s with position := s.position + 1 }) := by
      rw [memGet, if_neg (by omega), hget]
    rw [List.length_cons, qpStreamReadBytes, hmem]
    dsimp only
    rw [ih (hcons.right.move (s.position + 1))]
    simp only [Prod.mk.injEq, true_and, Stream.mk.injEq]
    omega

theorem qpStreamRead_of_holds {bs : List UInt8} {s : Stream} (h : s.Holds s.position bs) {size : Nat}
    (hsize : bs.length = size) : qpStreamRead size s = (some bs, { s with position := s.position + size }) := by
  subst hsize
  rw [qpStreamRead, qpStreamReadBytes_of_holds h]
  exact congrArg (·, _) (if_pos rfl)

theorem qpStreamRead_at_end {s : Stream} (h : s.length ≤ s.position) {size : Nat} (hsize : 0 < size) :
    qpStreamRead size s = (none, s) := by
  obtain ⟨size, rfl⟩ := Nat.exists_eq_succ_of_ne_zero (Nat.ne_of_gt hsize)
  rw [qpStreamRead, qpStreamReadBytes, memGet, if_pos h]
  simp

theorem asInt32_of_lt {n : Nat} (h : n < 2147483648) : asInt32 n = n := by
  rw [asInt32, BitVec.toInt_eq_toNat_cond, BitVec.toNat_ofNat]
  omega

theorem qpStreamSetpos_of_le {s : Stream} {offset : Nat} (hlt : offset < 2147483648) (hle : (offset : Int) ≤ s.length) :
    qpStreamSetpos offset s = (true, { s with position := offset }) := by
  rw [qpStreamSetpos, asInt32_of_lt hlt, memSeek, if_neg (by omega)]
  rfl

theorem position_of_qpStreamSetpos {s s' : Stream} {offset : Nat} (hlt : offset < 2147483648)
    (h : qpStreamSetpos offset s = (true, s')) : s' = { s with position := offset } := by
  rw [qpStreamSetpos, asInt32_of_lt hlt, memSeek] at h
  split at h
  · cases h
  · exact (Prod.mk.inj h).2.symm

def SameFile (s s' : Stream) : Prop := s'.buffer = s.buffer ∧ s'.length = s.length

theorem sameFile_memSeek (position : Int) (s : Stream) : SameFile s (memSeek position s).2 := by
  rw [memSeek]
  split <;> exact ⟨rfl, rfl⟩

theorem sameFile_qpStreamReadBytes (size : Nat) : ∀ s : Stream, SameFile s (qpStreamReadBytes size s).2 := by
  induction size with
  | zero => intro s; exact ⟨rfl, rfl⟩
  | succ size ih =>
    intro s
    rw [qpStreamReadBytes, memGet]
    by_cases hend : s.length ≤ s.position
    · rw [if_pos hend]
      exact ⟨rfl, rfl⟩
    · rw [if_neg hend]
      exact ih _

theorem sameFile_qpStreamRead (size : Nat) (s : Stream) : SameFile s (qpStreamRead size s).2 :=
  sameFile_qpStreamReadBytes size s

theorem SameFile.trans {s₁ s₂ s₃ : Stream} (h : SameFile s₁ s₂) (h' : SameFile s₂ s₃) : SameFile s₁ s₃ :=
  ⟨h'.1.trans h.1, h'.2.trans h.2⟩

def o8 (i : Nat) : List UInt8 := leBytes 1 i

def o16 (i : Nat) : List UInt8 := leBytes 2 i

def o24 (i : Nat) : List UInt8 := o16 (i &&& 0xFFFF) ++ o8 ((i &&& 0xFF0000) >>> 16)

def o32 (i : Nat) : List UInt8 := leBytes 4 i

theorem o24_eq (i : Nat) : o24 i = leBytes 3 i := by
  have hlow : i &&& 0xFFFF = i % 65536 := Nat.and_two_pow_sub_one_eq_mod i 16
  have hhigh : (i &&& 0xFF0000) >>> 16 = i / 65536 % 256 := by
    rw [Nat.shiftRight_and_distrib, Nat.shiftRight_eq_div_pow]
    exact Nat.and_two_pow_sub_one_eq_mod (i / 65536) 8
  simp only [o24, o16, o8, leBytes, hlow, hhigh, List.cons_append, List.nil_append]
  refine congrArg₂ _ ?_ (congrArg₂ _ ?_ (congrArg₂ _ ?_ rfl)) <;> apply UInt8.toNat.inj <;> simp <;> omega

@[simp]
theorem length_o8 (i : Nat) : (o8 i).length = 1 := length_leBytes 1 i

@[simp]
theorem length_o16 (i : Nat) : (o16 i).length = 2 := length_leBytes 2 i

@[simp]
theorem length_o24 (i : Nat) : (o24 i).length = 3 := by rw [o24_eq, length_leBytes]

@[simp]
theorem length_o32 (i : Nat) : (o32 i).length = 4 := length_leBytes 4 i

def blockHeader (typeId length : Nat) : List UInt8 := o8 typeId ++ o8 (255 - typeId) ++ o24 length

@[simp]
theorem length_blockHeader (typeId length : Nat) : (blockHeader typeId length).length = 5 := by
  simp [blockHeader]

def qgfValidateBlockHeader (desc : List UInt8) (expectedTypeid : Nat) (expectedLength : Int) : Bool :=
  decide (field desc 0 1 = expectedTypeid) && decide (field desc 1 1 = 255 - expectedTypeid) &&
    (decide (expectedLength < 0) || decide ((field desc 2 3 : Int) = expectedLength))

theorem fields_blockHeader {typeId length : Nat} (htype : typeId < 256) (rest : List UInt8) :
    field (blockHeader typeId length ++ rest) 0 1 = typeId ∧
      field (blockHeader typeId length ++ rest) 1 1 = 255 - typeId ∧
      field (blockHeader typeId length ++ rest) 2 3 = length % 16777216 := by
  rw [blockHeader, List.append_assoc, List.append_assoc]
  refine ⟨?_, ?_, ?_⟩
  · rw [field_here (length_o8 _), o8, leNat_leBytes_of_lt (by omega)]
  · rw [field_skip (by simp), length_o8, Nat.sub_self, field_here (length_o8 _), o8, leNat_leBytes_of_lt (by omega)]
  · rw [field_skip (by simp), length_o8, field_skip (by simp), length_o8, field_here (length_o24 _), o24_eq,
      leNat_leBytes]
    rfl

theorem qgfValidateBlockHeader_blockHeader {typeId length : Nat} (htype : typeId < 256) (rest : List UInt8)
    {expectedLength : Int} (h : expectedLength < 0 ∨ ((length % 16777216 : Nat) : Int) = expectedLength) :
    qgfValidateBlockHeader (blockHeader typeId length ++ rest) typeId expectedLength = true := by
  obtain ⟨htypeId, hneg, hlength⟩ := @fields_blockHeader typeId length htype rest
  rw [qgfValidateBlockHeader, htypeId, hneg, hlength]
  simpa using h

inductive ValidFormat where
  | rgb888 | rgb565 | pal256 | pal16 | pal4 | pal2 | mono256 | mono16 | mono4 | mono2
deriving DecidableEq, Repr

namespace ValidFormat

def bpp : ValidFormat → Nat
  | rgb888 => 24
  | rgb565 => 16
  | pal256 | mono256 => 8
  | pal16 | mono16 => 4
  | pal4 | mono4 => 2
  | pal2 | mono2 => 1

def hasPalette : ValidFormat → Bool
  | pal256 | pal16 | pal4 | pal2 => true
  | _ => false

def numColors : ValidFormat → Nat
  | rgb888 => 16777216
  | rgb565 => 65536
  | pal256 | mono256 => 256
  | pal16 | mono16 => 16
  | pal4 | mono4 => 4
  | pal2 | mono2 => 2

def imageFormatByte : ValidFormat → Nat
  | rgb888 => 0x09
  | rgb565 => 0x08
  | pal256 => 0x07
  | pal16 => 0x06
  | pal4 => 0x05
  | pal2 => 0x04
  | mono256 => 0x03
  | mono16 => 0x02
  | mono4 => 0x01
  | mono2 => 0x00

end ValidFormat

structure FormatInfo where
  bpp : Nat
  hasPalette : Bool
  isPanelNative : Bool
deriving DecidableEq, Repr

def formats : List FormatInfo :=
  [⟨1, false, false⟩, ⟨2, false, false⟩, ⟨4, false, false⟩, ⟨8, false, false⟩,
    ⟨1, true, false⟩, ⟨2, true, false⟩, ⟨4, true, false⟩, ⟨8, true, false⟩,
    ⟨16, false, true⟩, ⟨24, false, true⟩]

def qgfParseFormat (format : Nat) : Option FormatInfo := formats[format]?

theorem qgfParseFormat_imageFormatByte (f : ValidFormat) : ∃ isPanelNative,
    qgfParseFormat f.imageFormatByte = some ⟨f.bpp, f.hasPalette, isPanelNative⟩ := by
  cases f <;> exact ⟨_, rfl⟩

theorem ValidFormat.imageFormatByte_lt (f : ValidFormat) : f.imageFormatByte < 256 := by
  cases f <;> decide

theorem ValidFormat.numColors_eq (f : ValidFormat) : f.numColors = 2 ^ f.bpp := by
  cases f <;> rfl

/-- The options of the build: `QUANTUM_PAINTER_SUPPORTS_256_PALETTE` and `QUANTUM_PAINTER_SUPPORTS_NATIVE_COLORS`. -/
structure PainterConfig where
  supports256Palette : Bool
  supportsNativeColors : Bool

def qpInternalBppCapable (cfg : PainterConfig) (bitsPerPixel : Nat) : Bool :=
  cfg.supportsNativeColors ||
    ((cfg.supports256Palette || decide (bitsPerPixel ≤ 4)) && decide (bitsPerPixel ≤ 8))

end Painter
end VialQmk
