import VialQmk.Lib.LittleEndian
import VialQmk.Lib.Mem

/-!
# Drivers.EepromI2c

`eeprom_write_block` of `eeprom_i2c.c` on an EEPROM that wraps inside a page of the bank that the I2C address selects.

* `writeLoop_lands`: where each piece is short enough for the counter of the copy loop and the block stays in one
  bank, the block is written.
* `write_block_lands_iff`: and only there.
-/

namespace VialQmk
namespace Drivers

open Lib

/-- The macros of `eeprom_i2c.h` and the device. `bankOf` is the bank that the device takes an I2C address for; banks
consist of whole pages. -/
structure EepromI2c where
  byteCount : Nat
  pageSize : Nat
  addressSize : Nat
  i2cAddress : Nat → UInt8
  bankOf : UInt8 → Nat
  pageSize_pos : 0 < pageSize
  bankOf_i2cAddress : ∀ loc < byteCount, bankOf (i2cAddress loc) = loc / 256 ^ addressSize
  whole_pages : 256 ^ addressSize < byteCount → pageSize ∣ 256 ^ addressSize

namespace EepromI2c

variable (d : EepromI2c)

def bankSize : Nat := 256 ^ d.addressSize

/-- The bytes of a page write from an offset on, in the page at `base`. -/
def pageWrite (base : Nat) : Nat → List UInt8 → Mem UInt8 → Mem UInt8
  | _, [], m => m
  | offset, b :: bs, m => pageWrite base (offset + 1) bs (Function.update m (base + offset % d.pageSize) b)

/-- A packet starts with the address, most significant byte first. -/
def receive (i2c : UInt8) (packet : List UInt8) (m : Mem UInt8) : Mem UInt8 :=
  let a := leNat (packet.take d.addressSize).reverse
  d.pageWrite (d.bankOf i2c * d.bankSize + a / d.pageSize * d.pageSize) (a % d.pageSize)
    (packet.drop d.addressSize) m

def fillLoop : Nat → Nat → Mem UInt8 → Mem UInt8
  | 0, _, buffer => buffer
  | n + 1, p, buffer => fillLoop n (p / 256) (Function.update buffer n p.toUInt8)

def fillTargetAddress (buffer : Mem UInt8) (addr : Nat) : Mem UInt8 := fillLoop d.addressSize addr buffer

/-- The copy into `complete_packet`, with its 8-bit counter. -/
def copyLoop (readBuf : Mem UInt8) (writeLength : Nat) : Nat → UInt8 → Mem UInt8 → Option (Mem UInt8)
  | 0, _, _ => none
  | fuel + 1, i, packet =>
    if i.toNat < writeLength then
      copyLoop readBuf writeLength fuel (i + 1)
        (Function.update packet (d.addressSize + i.toNat) (readBuf i.toNat))
    else some packet

def writeLength (targetAddr len : Nat) : Nat :=
  let writeLength := d.pageSize - targetAddr % d.pageSize
  if len < writeLength then len else writeLength

/-- The pieces of a block. The I2C address is taken from `addr`. -/
def writeLoop (addr copyFuel : Nat) : Nat → Mem UInt8 → Nat → Nat → Mem UInt8 → Mem UInt8 → Option (Mem UInt8)
  | 0, _, _, _, _, _ => none
  | fuel + 1, readBuf, targetAddr, len, packet, m =>
    if len = 0 then some m
    else
      let n := d.writeLength targetAddr len
      (d.copyLoop readBuf n copyFuel 0 (d.fillTargetAddress packet targetAddr)).bind fun packet =>
        writeLoop addr copyFuel fuel (fun i => readBuf (i + n)) (targetAddr + n) (len - n) packet
          (d.receive (d.i2cAddress addr) (packet.readBlock 0 (d.addressSize + n)) m)

def eepromWriteBlock (fuel : Nat) (buf : Mem UInt8) (addr len : Nat) (m : Mem UInt8) : Option (Mem UInt8) :=
  d.writeLoop addr fuel fuel buf addr len (fun _ => 0) m

section Piece

variable {d}

theorem readBlock_fillLoop (n : Nat) : ∀ (p : Nat) (buffer : Mem UInt8),
    (fillLoop n p buffer).readBlock 0 n = (leBytes n p).reverse ∧
      ∀ x, n ≤ x → fillLoop n p buffer x = buffer x := by
  induction n with
  | zero => intro p buffer; simp [fillLoop, leBytes, Mem.readBlock]
  | succ n ih =>
    intro p buffer
    obtain ⟨hread, hframe⟩ := ih (p / 256) (Function.update buffer n p.toUInt8)
    constructor
    · rw [fillLoop, Mem.readBlock_append, hread]
      simp [Mem.readBlock, hframe n le_rfl, leBytes]
    · intro x hx
      rw [fillLoop, hframe x (by omega), Function.update_of_ne (by omega)]

variable {readBuf : Mem UInt8}

theorem copyLoop_short {writeLength : Nat} (hshort : writeLength ≤ 255) (n : Nat) :
    ∀ (fuel : Nat) (i : UInt8) (packet : Mem UInt8), i.toNat + n = writeLength → n < fuel →
      d.copyLoop readBuf writeLength fuel i packet =
        some (packet.writeBlock (d.addressSize + i.toNat) (readBuf.readBlock i.toNat n)) := by
  induction n with
  | zero =>
    intro fuel i packet hi hfuel
    cases fuel with
    | zero => omega
    | succ fuel =>
      rw [copyLoop, if_neg (by omega)]
      rfl
  | succ n ih =>
    intro fuel i packet hi hfuel
    cases fuel with
    | zero => omega
    | succ fuel =>
      have hnext : (i + 1).toNat = i.toNat + 1 := by
        simp
        omega
      rw [copyLoop, if_pos (by omega), ih fuel (i + 1) _ (by omega) (by omega), hnext]
      rfl

theorem copyLoop_long {writeLength : Nat} (hlong : 255 < writeLength) (fuel : Nat) :
    ∀ (i : UInt8) (packet : Mem UInt8), d.copyLoop readBuf writeLength fuel i packet = none := by
  induction fuel with
  | zero => intro i packet; rfl
  | succ fuel ih =>
    intro i packet
    have hlt := i.toNat_lt
    rw [copyLoop, if_pos (by omega), ih]

theorem packet_eq (packet : Mem UInt8) (targetAddr n : Nat) :
    ((d.fillTargetAddress packet targetAddr).writeBlock (d.addressSize + (0 : UInt8).toNat)
        (readBuf.readBlock 0 n)).readBlock 0 (d.addressSize + n) =
      (leBytes d.addressSize targetAddr).reverse ++ readBuf.readBlock 0 n := by
  obtain ⟨hread, -⟩ := readBlock_fillLoop d.addressSize targetAddr packet
  have hdata := Mem.readBlock_writeBlock (d.fillTargetAddress packet targetAddr) d.addressSize
    (readBuf.readBlock 0 n)
  rw [Mem.readBlock_length] at hdata
  rw [Mem.readBlock_append, UInt8.toNat_zero, Nat.add_zero, Nat.zero_add,
    Mem.readBlock_writeBlock_of_disjoint (.inl (by omega)), hdata, fillTargetAddress, hread]

theorem pageWrite_inside {base : Nat} (bs : List UInt8) : ∀ (offset : Nat) (m : Mem UInt8),
    offset + bs.length ≤ d.pageSize → d.pageWrite base offset bs m = m.writeBlock (base + offset) bs := by
  induction bs with
  | nil => intro offset m _; rfl
  | cons b bs ih =>
    intro offset m h
    rw [List.length_cons] at h
    rw [pageWrite, ih (offset + 1) _ (by omega), Nat.mod_eq_of_lt (by omega)]
    rfl

theorem receive_packet (i2c : UInt8) (targetAddr : Nat) (bs : List UInt8) (m : Mem UInt8) :
    d.receive i2c ((leBytes d.addressSize targetAddr).reverse ++ bs) m =
      d.pageWrite (d.bankOf i2c * d.bankSize + targetAddr % d.bankSize / d.pageSize * d.pageSize)
        (targetAddr % d.bankSize % d.pageSize) bs m := by
  have hlength : (leBytes d.addressSize targetAddr).reverse.length = d.addressSize := by
    rw [List.length_reverse, length_leBytes]
  rw [receive, List.take_left' hlength, List.drop_left' hlength, List.reverse_reverse, leNat_leBytes]
  rfl

theorem receive_piece {addr targetAddr n : Nat} (m : Mem UInt8) (haddr : addr < d.byteCount)
    (htarget : targetAddr < d.byteCount) (hbank : targetAddr / d.bankSize = addr / d.bankSize)
    (hn : n ≤ d.pageSize - targetAddr % d.pageSize) :
    d.receive (d.i2cAddress addr) ((leBytes d.addressSize targetAddr).reverse ++ readBuf.readBlock 0 n) m =
      m.writeBlock targetAddr (readBuf.readBlock 0 n) := by
  have hpage := Nat.mod_lt targetAddr d.pageSize_pos
  have hcell := Nat.div_add_mod' targetAddr d.bankSize
  have hmod : targetAddr % d.bankSize % d.pageSize = targetAddr % d.pageSize := by
    by_cases hbanks : d.bankSize < d.byteCount
    · exact Nat.mod_mod_of_dvd _ (d.whole_pages hbanks)
    · rw [Nat.mod_eq_of_lt (Nat.lt_of_lt_of_le htarget (Nat.not_lt.mp hbanks))]
  have hin := Nat.div_add_mod' (targetAddr % d.bankSize) d.pageSize
  rw [receive_packet, pageWrite_inside _ _ _ (by rw [Mem.readBlock_length, hmod]; omega),
    d.bankOf_i2cAddress addr haddr]
  congr 1
  have hsame : addr / 256 ^ d.addressSize = targetAddr / d.bankSize := hbank.symm
  rw [hsame]
  omega

theorem bankSize_pos : 0 < d.bankSize := Nat.pow_pos (by decide)

theorem pageWrite_frame {base x : Nat} (hx : ∀ offset, x ≠ base + offset % d.pageSize) (bs : List UInt8) :
    ∀ (offset : Nat) (m : Mem UInt8), d.pageWrite base offset bs m x = m x := by
  induction bs with
  | nil => intro offset m; rfl
  | cons b bs ih =>
    intro offset m
    rw [pageWrite, ih, Function.update_of_ne (hx offset)]

theorem receive_frame {i2c : UInt8} {packet : List UInt8} {m : Mem UInt8} {x : Nat}
    (hbanks : d.bankSize < d.byteCount) (hx : x / d.bankSize ≠ d.bankOf i2c) :
    d.receive i2c packet m x = m x := by
  have hpacket : leNat (packet.take d.addressSize).reverse < d.bankSize := by
    refine Nat.lt_of_lt_of_le (leNat_lt _) (Nat.pow_le_pow_right (by decide) ?_)
    rw [List.length_reverse]
    exact List.length_take_le _ _
  refine pageWrite_frame ?_ _ _ _
  rintro offset rfl
  apply hx
  obtain ⟨pages, hpages⟩ := d.whole_pages hbanks
  have hsize : d.bankSize = d.pageSize * pages := hpages
  have hmod := Nat.mod_lt offset d.pageSize_pos
  have hpage : leNat (packet.take d.addressSize).reverse / d.pageSize < pages := by
    rw [hsize] at hpacket
    exact Nat.div_lt_of_lt_mul hpacket
  have hend : (leNat (packet.take d.addressSize).reverse / d.pageSize + 1) * d.pageSize ≤ d.bankSize := by
    rw [hsize, Nat.mul_comm d.pageSize]
    exact Nat.mul_le_mul_right _ hpage
  rw [Nat.add_mul, Nat.one_mul] at hend
  rw [Nat.add_assoc, Nat.mul_comm, Nat.mul_add_div bankSize_pos, Nat.div_eq_of_lt (by omega), Nat.add_zero]

end Piece

def pieceLength (addr len page : Nat) : Nat := min (addr + len) ((page + 1) * d.pageSize) - max addr (page * d.pageSize)

/-- Every piece of the block is within the range of the 8-bit counter. -/
def ShortPieces (addr len : Nat) : Prop := ∀ page, d.pieceLength addr len page ≤ 255

def OneBank (addr len : Nat) : Prop := ∀ x, addr ≤ x → x < addr + len → x / d.bankSize = addr / d.bankSize

/-- The call ends with the block written and everything else as before. -/
def LandsWhereAsked (addr len : Nat) : Prop :=
  ∀ buf m, ∃ fuel m', d.eepromWriteBlock fuel buf addr len m = some m' ∧ (∀ i < len, m' (addr + i) = buf i) ∧
    ∀ x, x < addr ∨ addr + len ≤ x → m' x = m x

section Block

variable {d} {addr len : Nat}

variable (targetAddr : Nat) {copyFuel : Nat}

theorem writeLength_eq (len : Nat) :
    d.writeLength targetAddr len = min len (d.pageSize - targetAddr % d.pageSize) := by
  simp only [writeLength]
  split <;> omega

theorem pieceLength_front (len page : Nat) : d.pieceLength targetAddr len page =
      if page = targetAddr / d.pageSize then d.writeLength targetAddr len
      else d.pieceLength (targetAddr + d.writeLength targetAddr len) (len - d.writeLength targetAddr len) page := by
  have hmod := Nat.mod_lt targetAddr d.pageSize_pos
  have hdiv := Nat.div_add_mod' targetAddr d.pageSize
  rw [writeLength_eq, pieceLength, pieceLength, Nat.add_mul, Nat.one_mul]
  split
  · rename_i hpage
    subst hpage
    omega
  · rename_i hpage
    rcases Nat.lt_or_gt_of_ne hpage with hlt | hgt
    · have hle : (page + 1) * d.pageSize ≤ targetAddr / d.pageSize * d.pageSize := Nat.mul_le_mul_right _ hlt
      rw [Nat.add_mul, Nat.one_mul] at hle
      omega
    · have hle : (targetAddr / d.pageSize + 1) * d.pageSize ≤ page * d.pageSize := Nat.mul_le_mul_right _ hgt
      rw [Nat.add_mul, Nat.one_mul] at hle
      omega

theorem shortPieces_of_pageSize_le (h : d.pageSize ≤ 255) (addr len : Nat) : d.ShortPieces addr len := by
  intro page
  rw [pieceLength, Nat.add_mul, Nat.one_mul]
  omega

theorem writeLength_pos (hlen : len ≠ 0) : 0 < d.writeLength targetAddr len := by
  have hmod := Nat.mod_lt targetAddr d.pageSize_pos
  rw [writeLength_eq]
  omega

theorem writeLength_le (len : Nat) : d.writeLength targetAddr len ≤ len := by
  rw [writeLength_eq]
  exact Nat.min_le_left _ _

theorem ShortPieces.front {targetAddr : Nat} (h : d.ShortPieces targetAddr len) : d.writeLength targetAddr len ≤ 255 := by
  have hfront := h (targetAddr / d.pageSize)
  rwa [pieceLength_front, if_pos rfl] at hfront

theorem ShortPieces.rest {targetAddr : Nat} (h : d.ShortPieces targetAddr len) :
    d.ShortPieces (targetAddr + d.writeLength targetAddr len) (len - d.writeLength targetAddr len) := by
  intro page
  have hpage := h page
  rw [pieceLength_front] at hpage
  split at hpage
  · rename_i heq
    subst heq
    have hmod := Nat.mod_lt targetAddr d.pageSize_pos
    have hdiv := Nat.div_add_mod' targetAddr d.pageSize
    rw [writeLength_eq, pieceLength, Nat.add_mul, Nat.one_mul]
    omega
  · exact hpage

theorem writeLoop_piece {targetAddr : Nat} (hlen : len ≠ 0) (hshort : d.writeLength targetAddr len ≤ 255)
    (hfuel : 255 < copyFuel) (addr fuel : Nat) (readBuf packet m : Mem UInt8) :
    ∃ packet', d.writeLoop addr copyFuel (fuel + 1) readBuf targetAddr len packet m =
      d.writeLoop addr copyFuel fuel (fun i => readBuf (i + d.writeLength targetAddr len))
        (targetAddr + d.writeLength targetAddr len) (len - d.writeLength targetAddr len) packet'
        (d.receive (d.i2cAddress addr) ((leBytes d.addressSize targetAddr).reverse ++
          readBuf.readBlock 0 (d.writeLength targetAddr len)) m) := by
  let packet' := (d.fillTargetAddress packet targetAddr).writeBlock (d.addressSize + (0 : UInt8).toNat)
    (readBuf.readBlock 0 (d.writeLength targetAddr len))
  have hcopy : d.copyLoop readBuf (d.writeLength targetAddr len) copyFuel 0 (d.fillTargetAddress packet targetAddr) =
      some packet' :=
    copyLoop_short hshort _ copyFuel 0 _ (Nat.zero_add _) (by omega)
  refine ⟨packet', ?_⟩
  rw [writeLoop, if_neg hlen]
  simp only [hcopy, Option.bind_some]
  rw [packet_eq]

theorem readBlock_shift (readBuf : Mem UInt8) (n k : Nat) :
    Mem.readBlock (fun i => readBuf (i + n)) 0 k = readBuf.readBlock n k := by
  apply Mem.readBlock_congr
  intro i _
  rw [Nat.zero_add, Nat.add_comm]

theorem writeLoop_lands (haddr : addr < d.byteCount) (hcopy : 255 < copyFuel) (len : Nat) :
    ∀ (fuel targetAddr : Nat) (readBuf packet m : Mem UInt8), d.ShortPieces targetAddr len →
      (∀ x, targetAddr ≤ x → x < targetAddr + len → x / d.bankSize = addr / d.bankSize) →
      targetAddr + len ≤ d.byteCount → len < fuel →
      d.writeLoop addr copyFuel fuel readBuf targetAddr len packet m =
        some (m.writeBlock targetAddr (readBuf.readBlock 0 len)) := by
  induction len using Nat.strong_induction_on with
  | _ len ih =>
    intro fuel targetAddr readBuf packet m hshort hbank hend hfuel
    cases fuel with
    | zero => omega
    | succ fuel =>
      by_cases hlen : len = 0
      · subst hlen
        rfl
      · have hpos := writeLength_pos (d := d) targetAddr hlen
        have hle := writeLength_le (d := d) targetAddr len
        obtain ⟨packet', hpiece⟩ := writeLoop_piece hlen hshort.front hcopy addr fuel readBuf packet m
        rw [hpiece, receive_piece m haddr (by omega) (hbank targetAddr le_rfl (by omega))
          (by rw [writeLength_eq]; exact Nat.min_le_right _ _)]
        rw [ih _ (by omega) fuel _ _ _ _ hshort.rest (fun x hx hx' => hbank x (by omega) (by omega)) (by omega)
          (by omega)]
        have hparts := Mem.readBlock_append readBuf (len - d.writeLength targetAddr len)
          (d.writeLength targetAddr len) 0
        rw [Nat.add_sub_cancel' hle, Nat.zero_add] at hparts
        rw [hparts, readBlock_shift, Mem.writeBlock_append, Mem.readBlock_length]

theorem shortPieces_of_writeLoop (fuel : Nat) : ∀ (len targetAddr : Nat) (readBuf packet m m' : Mem UInt8),
    d.writeLoop addr copyFuel fuel readBuf targetAddr len packet m = some m' → d.ShortPieces targetAddr len := by
  induction fuel with
  | zero => intro len targetAddr readBuf packet m m' h; cases h
  | succ fuel ih =>
    intro len targetAddr readBuf packet m m' h
    by_cases hlen : len = 0
    · subst hlen
      intro page
      rw [pieceLength]
      omega
    · rw [writeLoop, if_neg hlen] at h
      obtain ⟨packet', hcopy, hrest⟩ := Option.bind_eq_some_iff.mp h
      have hshort : d.writeLength targetAddr len ≤ 255 := by
        by_contra hlong
        rw [copyLoop_long (Nat.not_le.mp hlong)] at hcopy
        cases hcopy
      intro page
      rw [pieceLength_front]
      split
      · exact hshort
      · exact ih _ _ _ _ _ _ hrest page

theorem writeLoop_frame (hbanks : d.bankSize < d.byteCount) (haddr : addr < d.byteCount) {x : Nat}
    (hx : x / d.bankSize ≠ addr / d.bankSize) (fuel : Nat) :
    ∀ (len targetAddr : Nat) (readBuf packet m m' : Mem UInt8),
      d.writeLoop addr copyFuel fuel readBuf targetAddr len packet m = some m' → m' x = m x := by
  induction fuel with
  | zero => intro len targetAddr readBuf packet m m' h; cases h
  | succ fuel ih =>
    intro len targetAddr readBuf packet m m' h
    by_cases hlen : len = 0
    · subst hlen
      cases h
      rfl
    · rw [writeLoop, if_neg hlen] at h
      obtain ⟨packet', -, hrest⟩ := Option.bind_eq_some_iff.mp h
      rw [ih _ _ _ _ _ _ hrest]
      refine receive_frame hbanks ?_
      rw [d.bankOf_i2cAddress addr haddr]
      exact hx

theorem LandsWhereAsked.oneBank (hend : addr + len ≤ d.byteCount) (h : d.LandsWhereAsked addr len) :
    d.OneBank addr len := by
  intro x hx hx'
  by_contra hbank
  have hbanks : d.bankSize < d.byteCount := by
    by_contra hone
    apply hbank
    rw [Nat.div_eq_of_lt (by omega), Nat.div_eq_of_lt (by omega)]
  obtain ⟨fuel, m', hcall, hwritten, -⟩ := h (fun _ => 1) (fun _ => 0)
  have hsame := writeLoop_frame hbanks (by omega) hbank _ _ _ _ _ _ _ hcall
  have hnew := hwritten (x - addr) (by omega)
  rw [Nat.add_sub_cancel' hx, hsame] at hnew
  exact absurd hnew (by decide)

theorem LandsWhereAsked.shortPieces (h : d.LandsWhereAsked addr len) : d.ShortPieces addr len := by
  obtain ⟨fuel, m', hcall, -⟩ := h (fun _ => 0) (fun _ => 0)
  exact shortPieces_of_writeLoop _ _ _ _ _ _ _ hcall

end Block

/-- A block within the device is written where it was asked for exactly when its pieces are short and it stays in one
bank. -/
theorem write_block_lands_iff (d : EepromI2c) (addr len : Nat) (h : addr + len ≤ d.byteCount) :
    d.LandsWhereAsked addr len ↔ d.ShortPieces addr len ∧ d.OneBank addr len := by
  constructor
  · intro hlands
    exact ⟨hlands.shortPieces, hlands.oneBank h⟩
  · rintro ⟨hshort, hbank⟩ buf m
    by_cases hlen : len = 0
    · subst hlen
      exact ⟨1, m, rfl, fun i hi => absurd hi (Nat.not_lt_zero i), fun _ _ => rfl⟩
    · refine ⟨len + 256, m.writeBlock addr (buf.readBlock 0 len), ?_, ?_, ?_⟩
      · exact writeLoop_lands (by omega) (by omega) len _ _ _ _ _ hshort hbank h (by omega)
      · intro i hi
        rw [Mem.writeBlock_of_mem (by simpa using hi), Mem.readBlock_getElem, Nat.zero_add]
      · rintro x (hx | hx)
        · exact Mem.writeBlock_of_lt _ _ _ hx
        · exact Mem.writeBlock_of_ge (by simpa using hx)

/-- Four banks of 64 KiB, with the upper address bits in the I2C address as the header suggests. -/
def fourBanks : EepromI2c where
  byteCount := 262144
  pageSize := 128
  addressSize := 2
  i2cAddress loc := (0b10100000 : UInt8) ||| ((loc / 65536).toUInt8 &&& (0x07 : UInt8)) <<< (1 : UInt8)
  bankOf i2c := ((i2c >>> 1) &&& (0x07 : UInt8)).toNat
  pageSize_pos := by decide
  bankOf_i2cAddress loc hloc := by
    have hbank : loc / 65536 = 0 ∨ loc / 65536 = 1 ∨ loc / 65536 = 2 ∨ loc / 65536 = 3 := by omega
    rcases hbank with hbank | hbank | hbank | hbank
    all_goals
      simp only [Nat.reducePow, hbank]
      decide
  whole_pages _ := by decide

theorem write_block_lands_within_bank : fourBanks.LandsWhereAsked 65500 36 :=
  (write_block_lands_iff fourBanks 65500 36 (by decide)).mpr ⟨shortPieces_of_pageSize_le (by decide) _ _,
    fun x _ hx => by rw [Nat.div_eq_of_lt (Nat.lt_of_lt_of_le hx (by decide))]; rfl⟩

/-- The second byte of a block across two banks ends up at the start of the first. -/
theorem write_block_crosses_bank : 65535 + 2 ≤ fourBanks.byteCount ∧ ¬ fourBanks.LandsWhereAsked 65535 2 := by
  refine ⟨by decide, fun hlands => ?_⟩
  have hbank := hlands.oneBank (by decide) 65536 (by decide) (by decide)
  exact absurd hbank (by decide)

end EepromI2c

end Drivers
end VialQmk
