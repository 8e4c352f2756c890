import VialQmk.Flash.Spi

/-!
# Flash.BackingStore

The backing store of the wear-leveling layer on the external SPI flash (`wear_leveling_flash_spi.c`).

* `BackingStore`: the region and the sizes, as `wear_leveling_flash_spi_config.h` leaves them to the keyboard.
* `backing_store_iff`: the exact condition under which an erase and the reads behind it, and a write and the read behind
  it, do what the wear-leveling layer relies on.

Cells keep the complement of a value, so that the zeros of a fresh log are erased cells.
-/

namespace VialQmk
namespace Flash

open Lib

structure BackingStore extends ExternalFlash where
  /-- `WEAR_LEVELING_EXTERNAL_FLASH_BLOCK_OFFSET` -/
  blockOffset : Nat
  /-- `WEAR_LEVELING_EXTERNAL_FLASH_BLOCK_COUNT` -/
  blockCount : Nat
  /-- `WEAR_LEVELING_EXTERNAL_FLASH_BULK_COUNT` -/
  bulkCount : Nat
  /-- `BACKING_STORE_WRITE_SIZE` -/
  writeSize : Nat
  blockCount_pos : 0 < blockCount
  bulkCount_pos : 0 < bulkCount
  writeSize_mem : writeSize = 2 ∨ writeSize = 4 ∨ writeSize = 8
  /-- The region is on the chip. -/
  fits : (blockOffset + blockCount) * blockSize ≤ size

section Values

variable {size : Nat}

abbrev Item (size : Nat) := BitVec (8 * size)

def valueBytes (values : List (Item size)) : List UInt8 := values.flatMap fun v => leBytes size v.toNat

def itemsOf : Nat → List UInt8 → List (Item size)
  | 0, _ => []
  | count + 1, bytes => BitVec.ofNat _ (leNat (bytes.take size)) :: itemsOf count (bytes.drop size)

def complement (values : List (Item size)) : List (Item size) := values.map fun v => ~~~v

end Values

section Store

variable (b : BackingStore) (t : Timing b.spiTimeout)

namespace BackingStore

def regionStart : Nat := b.blockOffset * b.blockSize

def backingSize : Nat := b.blockCount * b.blockSize

def InRegion (a : Nat) : Prop := b.regionStart ≤ a ∧ a < b.regionStart + b.backingSize
deriving Decidable

end BackingStore

def eraseBlocks : Nat → Nat → Driver Unit
  | _, 0 => pure ()
  | i, count + 1 => do
    flashEraseBlock b.toExternalFlash t ((b.blockOffset + i) * b.blockSize % 2 ^ 32)
    eraseBlocks (i + 1) count

def backingStoreErase (s : Chip) : Bool × Chip :=
  match eraseBlocks b t 0 b.blockCount s with
  | .ok _ s' => (true, s')
  | .error _ s' => (false, s')

def backingStoreReadBulk (address : Nat) (values : List (Item b.writeSize)) (s : Chip) :
    (Bool × List (Item b.writeSize)) × Chip :=
  match flashReadRange b.toExternalFlash t ((b.regionStart + address) % 2 ^ 32) (valueBytes values) s with
  | .ok buf s' => ((true, complement (itemsOf values.length buf)), s')
  | .error _ s' => ((false, values.map fun _ => 0), s')

def backingStoreRead (address : Nat) (value : Item b.writeSize) (s : Chip) :
    (Bool × List (Item b.writeSize)) × Chip :=
  backingStoreReadBulk b t address [value] s

def thisLoop (itemCount : Nat) : Nat := min itemCount b.bulkCount

/-- The loop of `backing_store_write_bulk`, which writes a chunk before it asks whether there are items. -/
def writeChunks : Nat → Nat → List (Item b.writeSize) → Driver Unit
  | 0, _, _ => pure ()
  | rounds + 1, offset, values => do
    flashWriteRange b.toExternalFlash t offset (valueBytes (complement (values.take (thisLoop b values.length))))
    if values.length - thisLoop b values.length > 0 then
      writeChunks rounds ((offset + thisLoop b values.length * b.writeSize) % 2 ^ 32)
        (values.drop (thisLoop b values.length))
    else pure ()

def backingStoreWriteBulk (address : Nat) (values : List (Item b.writeSize)) (s : Chip) : Bool × Chip :=
  match writeChunks b t (values.length + 1) ((b.regionStart + address) % 2 ^ 32) values s with
  | .ok _ s' => (true, s')
  | .error _ s' => (false, s')

end Store

section Values

variable {size : Nat}

variable (values : List (Item size))

theorem length_valueBytes : (valueBytes values).length = values.length * size := by
  induction values with
  | nil => simp [valueBytes]
  | cons v values ih =>
    rw [valueBytes] at ih ⊢
    rw [List.flatMap_cons, List.length_append, length_leBytes, ih, List.length_cons, Nat.add_one_mul, Nat.add_comm]

theorem valueBytes_append (values' : List (Item size)) :
    valueBytes (values ++ values') = valueBytes values ++ valueBytes values' := List.flatMap_append

theorem length_complement : (complement values).length = values.length :=
  List.length_map _

theorem complement_append (values' : List (Item size)) :
    complement (values ++ values') = complement values ++ complement values' := List.map_append

theorem complement_complement : complement (complement values) = values := by
  simp [complement, Function.comp_def]

theorem toNat_lt (v : Item size) : v.toNat < 256 ^ size := by
  rw [show (256 : Nat) = 2 ^ 8 from rfl, ← Nat.pow_mul]
  exact v.isLt

theorem itemsOf_valueBytes : itemsOf values.length (valueBytes values) = values := by
  induction values with
  | nil => rfl
  | cons v values ih =>
    have hlen : (leBytes size v.toNat).length = size := length_leBytes _ _
    rw [valueBytes, List.flatMap_cons, List.length_cons, itemsOf, List.take_left' hlen, List.drop_left' hlen,
      leNat_leBytes_of_lt (toNat_lt v), BitVec.ofNat_toNat, BitVec.setWidth_eq]
    exact congrArg _ ih

theorem valueBytes_itemsOf (count : Nat) :
    ∀ bytes : List UInt8, bytes.length = count * size → valueBytes (@itemsOf size count bytes) = bytes := by
  induction count with
  | zero =>
    intro bytes h
    rw [Nat.zero_mul, List.length_eq_zero_iff] at h
    rw [h]
    rfl
  | succ count ih =>
    intro bytes h
    rw [Nat.succ_mul] at h
    have htake : (bytes.take size).length = size := by rw [List.length_take]; omega
    have hlt := leNat_lt (bytes.take size)
    have hround := leBytes_leNat (bytes.take size)
    have hrest := ih (bytes.drop size) (by rw [List.length_drop]; omega)
    rw [htake, show (256 : Nat) = 2 ^ 8 from rfl, ← Nat.pow_mul] at hlt
    rw [htake] at hround
    rw [valueBytes] at hrest
    rw [itemsOf, valueBytes, List.flatMap_cons, BitVec.toNat_ofNat, Nat.mod_eq_of_lt hlt, hround, hrest,
      List.take_append_drop]

theorem complement_itemsOf_iff {values : List (Item size)} {bytes : List UInt8}
    (h : bytes.length = values.length * size) :
    complement (itemsOf values.length bytes) = values ↔ bytes = valueBytes (complement values) := by
  constructor
  · intro hv
    have hitems := congrArg complement hv
    rw [complement_complement] at hitems
    rw [← hitems, valueBytes_itemsOf _ _ h]
  · rintro rfl
    have hitems := itemsOf_valueBytes (complement values)
    rw [length_complement] at hitems
    rw [hitems, complement_complement]

theorem valueBytes_replicate_zero (count : Nat) :
    valueBytes (List.replicate count (0 : Item size)) = List.replicate (count * size) 0 := by
  induction count with
  | zero =>
    rw [Nat.zero_mul]
    rfl
  | succ count ih =>
    rw [valueBytes] at ih ⊢
    rw [List.replicate_succ, List.flatMap_cons, ih, show (0 : Item size).toNat = 0 by simp, leBytes_zero,
      List.replicate_append_replicate, Nat.add_comm, Nat.succ_mul]

theorem valueBytes_complement_zero (count : Nat) :
    valueBytes (complement (List.replicate count (0 : Item size))) = List.replicate (count * size) 0xFF := by
  induction count with
  | zero =>
    rw [Nat.zero_mul]
    rfl
  | succ count ih =>
    have hmax : (~~~(0 : Item size)).toNat = 256 ^ size - 1 := by
      rw [BitVec.toNat_not, show (256 : Nat) = 2 ^ 8 from rfl, ← Nat.pow_mul]
      simp
    rw [valueBytes, complement] at ih ⊢
    rw [List.replicate_succ, List.map_cons, List.flatMap_cons, ih, hmax, leBytes_max, List.replicate_append_replicate,
      Nat.add_comm, Nat.succ_mul]

end Values

section Blocks

variable {b : BackingStore} {t : Timing b.spiTimeout}

def erased (cells : Mem UInt8) (start stop : Nat) : Mem UInt8 :=
  fun a => if start ≤ a ∧ a < stop then 0xFF else cells a

theorem blockErase_block (cells : Mem UInt8) (block : Nat) :
    blockErase b.toExternalFlash cells (block * b.blockSize) =
      erased cells (block * b.blockSize) ((block + 1) * b.blockSize) := by
  funext a
  rw [blockErase, erased, Nat.mul_div_cancel _ b.blockSize_pos]
  refine if_congr ?_ rfl rfl
  rw [Nat.div_eq_iff b.blockSize_pos, Nat.add_one_mul]
  have := b.blockSize_pos
  omega

theorem erased_erased (cells : Mem UInt8) {start middle stop : Nat} (h : start ≤ middle) (h' : middle ≤ stop) :
    erased (erased cells start middle) middle stop = erased cells start stop := by
  funext a
  simp only [erased]
  split_ifs <;> first | rfl | omega

theorem eraseBlocks_guarded (count : Nat) :
    ∀ i s, (b.blockOffset + i + count) * b.blockSize < b.size →
      Guarded (t.Clear s.waits (2 * count)) (eraseBlocks b t i count) s ()
        { cells := erased s.cells ((b.blockOffset + i) * b.blockSize) ((b.blockOffset + i + count) * b.blockSize)
          writeEnableLatch := if count = 0 then s.writeEnableLatch else false
          waits := s.waits + 2 * count } := by
  induction count with
  | zero =>
    intro i s _
    have hnone : erased s.cells ((b.blockOffset + i) * b.blockSize) ((b.blockOffset + i) * b.blockSize) = s.cells := by
      funext a
      rw [erased, if_neg (by omega)]
    rw [Nat.add_zero, hnone]
    exact Guarded.congr (Guarded.pure () s) (iff_of_true trivial (Timing.clear_zero _))
  | succ count ih =>
    intro i s h
    have hsize := b.size_lt
    have hle : (b.blockOffset + i + 1) * b.blockSize ≤ (b.blockOffset + i + (count + 1)) * b.blockSize :=
      Nat.mul_le_mul_right _ (by omega)
    have hblock : (b.blockOffset + i) * b.blockSize + b.blockSize = (b.blockOffset + i + 1) * b.blockSize :=
      (Nat.succ_mul _ _).symm
    rw [eraseBlocks, Nat.mod_eq_of_lt (by omega), show 2 * (count + 1) = 2 + 2 * count by omega,
      if_neg (Nat.succ_ne_zero count)]
    refine Guarded.congr ((flashEraseBlock_guarded (by omega) (Nat.mul_mod_left _ _) s).bind fun _ => ?_)
      Timing.clear_add.symm
    have hrest := ih (i + 1)
      { cells := blockErase b.toExternalFlash s.cells ((b.blockOffset + i) * b.blockSize)
        writeEnableLatch := false, waits := s.waits + 2 } (by rwa [show b.blockOffset + (i + 1) + count =
          b.blockOffset + i + (count + 1) by omega])
    rw [blockErase_block] at hrest ⊢
    rw [show b.blockOffset + (i + 1) + count = b.blockOffset + i + (count + 1) by omega,
      ← Nat.add_assoc b.blockOffset i 1] at hrest
    simp only [erased_erased s.cells (Nat.mul_le_mul_right b.blockSize (Nat.le_succ (b.blockOffset + i))) hle,
      ite_self] at hrest
    rwa [← Nat.add_assoc s.waits]

theorem eraseBlocks_over (count : Nat) :
    ∀ i s s', (b.blockOffset + i + (count + 1)) * b.blockSize = b.size →
      Guarded False (eraseBlocks b t i (count + 1)) s () s' := by
  have hsize := b.size_lt
  induction count with
  | zero =>
    intro i s s' h
    have hblock : (b.blockOffset + i) * b.blockSize + b.blockSize = b.size := by rw [← Nat.succ_mul]; exact h
    have hpos := b.blockSize_pos
    have hover : Guarded False
        (flashEraseBlock b.toExternalFlash t ((b.blockOffset + i) * b.blockSize % 2 ^ 32)) s () s := by
      refine ⟨False.elim, fun _ => ⟨.error, s, ?_⟩⟩
      rw [Nat.mod_eq_of_lt (by omega)]
      exact flashEraseBlock_over (by omega) (by omega) s
    exact Guarded.congr (hover.bind (Q := False) fun h => h.elim) (iff_of_false (fun h => h.1) id)
  | succ count ih =>
    intro i s s' h
    have hlt : (b.blockOffset + i + 1) * b.blockSize < b.size := by
      rw [← h]
      exact Nat.mul_lt_mul_of_pos_right (by omega) b.blockSize_pos
    have hblock : (b.blockOffset + i) * b.blockSize + b.blockSize = (b.blockOffset + i + 1) * b.blockSize :=
      (Nat.succ_mul _ _).symm
    rw [eraseBlocks, Nat.mod_eq_of_lt (by omega)]
    refine Guarded.congr ((flashEraseBlock_guarded (by omega) (Nat.mul_mod_left _ _) s).bind fun _ => ?_)
      (iff_of_false (fun h => h.2) id)
    refine ih (i + 1) _ _ ?_
    rwa [show b.blockOffset + (i + 1) + (count + 1) = b.blockOffset + i + (count + 1 + 1) by omega]

end Blocks

section Chunks

variable {b : BackingStore} {t : Timing b.spiTimeout}

/-- How often the loop of a bulk write waits: for every page of a chunk, and once behind the chunk. -/
def chunkWaits (b : BackingStore) : Nat → Nat → Nat → Nat
  | 0, _, _ => 0
  | rounds + 1, offset, itemCount =>
    pageCount b.toExternalFlash offset (thisLoop b itemCount * b.writeSize) + 1 +
      if itemCount - thisLoop b itemCount > 0 then
        chunkWaits b rounds (offset + thisLoop b itemCount * b.writeSize) (itemCount - thisLoop b itemCount)
      else 0

def writeWaits (b : BackingStore) (address itemCount : Nat) : Nat :=
  chunkWaits b (itemCount + 1) (b.regionStart + address) itemCount

theorem writeChunks_guarded (rounds : Nat) :
    ∀ offset values s, values.length < rounds → offset + values.length * b.writeSize ≤ b.size →
      values.length * b.writeSize < 2 ^ 16 →
      Guarded (t.Clear s.waits (chunkWaits b rounds offset values.length)) (writeChunks b t rounds offset values) s ()
        { cells := programmed s.cells offset (valueBytes (complement values)), writeEnableLatch := false
          waits := s.waits + chunkWaits b rounds offset values.length } := by
  have hlt := b.size_lt
  induction rounds with
  | zero =>
    intro offset values s h
    exact absurd h (Nat.not_lt_zero _)
  | succ rounds ih =>
    intro offset values s hr hsize hshort
    generalize hn : thisLoop b values.length = n
    have hn' : n ≤ values.length ∧ (0 < values.length → 0 < n) := by
      have := b.bulkCount_pos
      rw [← hn, thisLoop]
      omega
    have hmul : n * b.writeSize ≤ values.length * b.writeSize := Nat.mul_le_mul_right _ hn'.1
    have hchunk : (valueBytes (complement (values.take n))).length = n * b.writeSize := by
      rw [length_valueBytes, length_complement, List.length_take, Nat.min_eq_left hn'.1]
    have hdrop : (values.drop n).length * b.writeSize = values.length * b.writeSize - n * b.writeSize := by
      rw [List.length_drop, Nat.sub_mul]
    rw [writeChunks, hn, chunkWaits, hn]
    have hfirst := @flashWriteRange_guarded b.toExternalFlash t offset (valueBytes (complement (values.take n)))
      (by omega) (by omega) s
    rw [hchunk] at hfirst
    by_cases hmore : values.length - n > 0
    · rw [if_pos hmore, if_pos hmore, Nat.mod_eq_of_lt (by omega)]
      refine Guarded.congr (hfirst.bind fun _ => ?_) Timing.clear_add.symm
      have hrest := ih (offset + n * b.writeSize) (values.drop n)
        { cells := programmed s.cells offset (valueBytes (complement (values.take n))), writeEnableLatch := false
          waits := s.waits + (pageCount b.toExternalFlash offset (n * b.writeSize) + 1) }
        (by rw [List.length_drop]; omega) (by omega) (by omega)
      have happ := programmed_append (valueBytes (complement (values.take n))) (valueBytes (complement (values.drop n)))
        s.cells offset
      rw [hchunk, ← valueBytes_append, ← complement_append, List.take_append_drop] at happ
      rw [List.length_drop] at hrest
      simp only [happ] at hrest
      rwa [← Nat.add_assoc s.waits (_ + 1)]
    · obtain rfl : n = values.length := by omega
      rw [if_neg hmore, if_neg hmore, Nat.add_zero]
      rw [List.take_length] at hfirst ⊢
      exact Guarded.congr (hfirst.bind fun _ => Guarded.pure () _) (and_iff_left trivial)

end Chunks

section Calls

variable {b : BackingStore} {t : Timing b.spiTimeout}

theorem addr_eq {address n : Nat} (h : address + n ≤ b.backingSize) :
    (b.regionStart + address) % 2 ^ 32 = b.regionStart + address ∧ b.regionStart + b.backingSize ≤ b.size := by
  have hsize := b.size_lt
  have hfits := b.fits
  rw [Nat.add_mul] at hfits
  rw [BackingStore.backingSize] at h ⊢
  rw [BackingStore.regionStart]
  exact ⟨Nat.mod_eq_of_lt (by omega), hfits⟩

theorem backingStoreErase_eq {s : Chip} (h : b.regionStart + b.backingSize < b.size)
    (ht : t.Clear s.waits (2 * b.blockCount)) :
    backingStoreErase b t s =
      (true, { cells := erased s.cells b.regionStart (b.regionStart + b.backingSize), writeEnableLatch := false
               waits := s.waits + 2 * b.blockCount }) := by
  have hpos := b.blockCount_pos
  rw [BackingStore.regionStart, BackingStore.backingSize, ← Nat.add_mul] at h ⊢
  have hg := (eraseBlocks_guarded (t := t) b.blockCount 0 s (by rwa [Nat.add_zero])).ok ht
  rw [Nat.add_zero, if_neg (by omega)] at hg
  rw [backingStoreErase, hg]

theorem of_backingStoreErase {s : Chip} (h : (backingStoreErase b t s).1 = true) :
    b.regionStart + b.backingSize < b.size ∧ t.Clear s.waits (2 * b.blockCount) := by
  have hpos := b.blockCount_pos
  have hfits := b.fits
  obtain ⟨a, s', hok⟩ : ∃ a s', eraseBlocks b t 0 b.blockCount s = .ok a s' := by
    cases he : eraseBlocks b t 0 b.blockCount s with
    | ok a s' => exact ⟨a, s', rfl⟩
    | error e s' =>
      rw [backingStoreErase, he] at h
      exact absurd h Bool.false_ne_true
  rw [BackingStore.regionStart, BackingStore.backingSize, ← Nat.add_mul]
  have hlt : (b.blockOffset + b.blockCount) * b.blockSize < b.size := by
    refine hfits.lt_of_ne fun heq => ?_
    have hover := eraseBlocks_over (t := t) (b.blockCount - 1) 0 s s
      (by rwa [Nat.add_zero, Nat.sub_add_cancel hpos])
    rw [Nat.sub_add_cancel hpos] at hover
    exact hover.of_result hok
  exact ⟨hlt, (eraseBlocks_guarded b.blockCount 0 s (by rwa [Nat.add_zero])).of_result hok⟩

/-- What a bulk read leaves in the buffer: no more than 65535 bytes come from the chip. -/
def readBytes (address : Nat) (buf : List (Item b.writeSize)) (cells : Mem UInt8) : List UInt8 :=
  cells.readBlock (b.regionStart + address) ((valueBytes buf).length % 2 ^ 16) ++
    (valueBytes buf).drop ((valueBytes buf).length % 2 ^ 16)

theorem readBulk_guarded {address : Nat} {buf : List (Item b.writeSize)}
    (h : address + buf.length * b.writeSize ≤ b.backingSize) (s : Chip) :
    Guarded (t.Clear s.waits 1)
      (flashReadRange b.toExternalFlash t ((b.regionStart + address) % 2 ^ 32) (valueBytes buf)) s
      (readBytes address buf s.cells) { s with waits := s.waits + 1 } := by
  have haddr := addr_eq h
  have hlen := length_valueBytes buf
  rw [haddr.1]
  exact flashReadRange_guarded (by omega) s

theorem length_readBytes (address : Nat) (buf : List (Item b.writeSize)) (cells : Mem UInt8) :
    (readBytes address buf cells).length = buf.length * b.writeSize := by
  have hle := Nat.mod_le (valueBytes buf).length (2 ^ 16)
  rw [readBytes, List.length_append, Mem.readBlock_length, List.length_drop, length_valueBytes]
  rw [length_valueBytes] at hle
  omega

theorem readBulk_eq {address : Nat} {buf : List (Item b.writeSize)}
    (h : address + buf.length * b.writeSize ≤ b.backingSize) {s : Chip} (ht : t.Clear s.waits 1) :
    backingStoreReadBulk b t address buf s =
      ((true, complement (itemsOf buf.length (readBytes address buf s.cells))), { s with waits := s.waits + 1 }) := by
  rw [backingStoreReadBulk, (readBulk_guarded h s).ok ht]

theorem readBulk_iff {address : Nat} {buf values : List (Item b.writeSize)} (hlen : buf.length = values.length)
    (h : address + buf.length * b.writeSize ≤ b.backingSize) (s : Chip) :
    (backingStoreReadBulk b t address buf s).1 = (true, values) ↔
      t.Clear s.waits 1 ∧ readBytes address buf s.cells = valueBytes (complement values) := by
  have hbytes := length_readBytes address buf s.cells
  rw [hlen] at hbytes
  constructor
  · intro hr
    have ht : t.Clear s.waits 1 := by
      by_contra hn
      obtain ⟨e, s', he⟩ := (readBulk_guarded h s).error hn
      rw [backingStoreReadBulk, he] at hr
      exact absurd (congrArg Prod.fst hr) Bool.false_ne_true
    rw [readBulk_eq h ht, hlen, Prod.mk.injEq, complement_itemsOf_iff hbytes] at hr
    exact ⟨ht, hr.2⟩
  · rintro ⟨ht, hr⟩
    rw [readBulk_eq h ht, hlen, (complement_itemsOf_iff hbytes).mpr hr]

end Calls

section Contract

variable (b : BackingStore) (t : Timing b.spiTimeout)

/-- Reads one after the other, each with what its variable held before. -/
def readEach : List (Nat × Item b.writeSize) → Chip → List (Bool × List (Item b.writeSize))
  | [], _ => []
  | (address, value) :: reads, s =>
    (backingStoreRead b t address value s).1 :: readEach reads (backingStoreRead b t address value s).2

structure MeetsErase (s : Chip) (reads : List (Nat × Item b.writeSize)) : Prop where
  succeeds : (backingStoreErase b t s).1 = true
  inside : ∀ a, b.InRegion a → (backingStoreErase b t s).2.cells a = 0xFF
  outside : ∀ a, ¬ b.InRegion a → (backingStoreErase b t s).2.cells a = s.cells a
  reads_zero : ∀ r ∈ readEach b t reads (backingStoreErase b t s).2, r = (true, [0])

/-- A bulk write from the state `s`, and a bulk read of the same items behind it. -/
structure MeetsWrite (s : Chip) (address : Nat) (values : List (Item b.writeSize)) : Prop where
  succeeds : (backingStoreWriteBulk b t address values s).1 = true
  reads_back : ∀ buf, buf.length = values.length →
    (backingStoreReadBulk b t address buf (backingStoreWriteBulk b t address values s).2).1 = (true, values)
  outside : ∀ a, ¬ b.InRegion a → (backingStoreWriteBulk b t address values s).2.cells a = s.cells a

def OnlyClears (cells : Mem UInt8) (addr : Nat) (data : List UInt8) : Prop :=
  ∀ i, i < data.length → cells (addr + i) &&& data.getD i 0xFF = data.getD i 0xFF

end Contract

section Contract

variable {b : BackingStore} {t : Timing b.spiTimeout}

theorem readBlock_programmed_iff (cells : Mem UInt8) (addr : Nat) (data : List UInt8) :
    (programmed cells addr data).readBlock addr data.length = data ↔ OnlyClears cells addr data := by
  constructor
  · intro h i hi
    have hget := Mem.readBlock_getElem (programmed cells addr data) data.length addr i (by rwa [Mem.readBlock_length])
    rw [programmed, if_pos (by omega), Nat.add_sub_cancel_left] at hget
    rw [← hget, List.getD_eq_getElem _ _ hi]
    exact List.getElem_of_eq h _
  · intro h
    refine List.ext_getElem (by simp) fun i hi hi' => ?_
    rw [Mem.readBlock_getElem, programmed, if_pos (by omega), Nat.add_sub_cancel_left, h i hi',
      List.getD_eq_getElem _ _ hi']

theorem writeSize_lt : b.writeSize < 2 ^ 16 := by
  have := b.writeSize_mem
  omega

theorem readEach_zero_iff (reads : List (Nat × Item b.writeSize))
    (hreads : ∀ r ∈ reads, r.1 + b.writeSize ≤ b.backingSize) :
    ∀ s : Chip, (∀ a, b.InRegion a → s.cells a = 0xFF) →
      ((∀ r ∈ readEach b t reads s, r = (true, [0])) ↔ t.Clear s.waits reads.length) := by
  induction reads with
  | nil =>
    intro s _
    exact iff_of_true (fun r hr => absurd hr List.not_mem_nil) (Timing.clear_zero _)
  | cons read reads ih =>
    intro s hs
    obtain ⟨address, value⟩ := read
    have hfit : address + [value].length * b.writeSize ≤ b.backingSize := by
      rw [List.length_singleton, Nat.one_mul]
      exact hreads _ List.mem_cons_self
    have hsize := writeSize_lt (b := b)
    have hone := @readBulk_iff b t address [value] [0] rfl hfit s
    have hbytes : readBytes address [value] s.cells = valueBytes (complement [(0 : Item b.writeSize)]) := by
      have hzero := @valueBytes_complement_zero b.writeSize 1
      rw [readBytes, length_valueBytes, List.length_singleton, Nat.one_mul, Nat.mod_eq_of_lt hsize,
        List.drop_eq_nil_of_le (by simp [length_valueBytes]), List.append_nil]
      rw [List.replicate_one, Nat.one_mul] at hzero
      rw [hzero]
      refine List.eq_replicate_iff.mpr ⟨Mem.readBlock_length _ _ _, fun x hx => ?_⟩
      obtain ⟨i, hi, rfl⟩ := Mem.mem_readBlock.mp hx
      rw [List.length_singleton, Nat.one_mul] at hfit
      exact hs _ ⟨by omega, by omega⟩
    rw [and_iff_left hbytes] at hone
    rw [readEach, List.forall_mem_cons, backingStoreRead, hone, List.length_cons, Nat.add_comm, Timing.clear_add]
    refine and_congr_right fun ht => ?_
    rw [readBulk_eq hfit ht]
    exact ih (fun r hr => hreads r (List.mem_cons_of_mem _ hr)) _ hs

theorem meetsErase_iff (s : Chip) (reads : List (Nat × Item b.writeSize))
    (hreads : ∀ r ∈ reads, r.1 + b.writeSize ≤ b.backingSize) :
    MeetsErase b t s reads ↔
      b.regionStart + b.backingSize < b.size ∧ t.Clear s.waits (2 * b.blockCount + reads.length) := by
  constructor
  · intro h
    have hok := of_backingStoreErase h.succeeds
    refine ⟨hok.1, Timing.clear_add.mpr ⟨hok.2, ?_⟩⟩
    have hzero := (readEach_zero_iff reads hreads _ h.inside).mp h.reads_zero
    rwa [backingStoreErase_eq hok.1 hok.2] at hzero
  · rintro ⟨hend, ht⟩
    obtain ⟨herase, hread⟩ := Timing.clear_add.mp ht
    have heq := backingStoreErase_eq hend herase
    have hinside : ∀ a, b.InRegion a → (backingStoreErase b t s).2.cells a = 0xFF := by
      intro a ha
      rw [heq]
      exact if_pos ha
    refine ⟨by rw [heq], hinside, fun a ha => ?_, (readEach_zero_iff reads hreads _ hinside).mpr ?_⟩
    · rw [heq]
      exact if_neg ha
    · rw [heq]
      exact hread

theorem short_of_reads_back {address : Nat} {values : List (Item b.writeSize)} {s : Chip}
    (h : address + values.length * b.writeSize ≤ b.backingSize)
    (hread : ∀ buf, buf.length = values.length → (backingStoreReadBulk b t address buf s).1 = (true, values)) :
    values.length * b.writeSize < 2 ^ 16 := by
  by_contra hlong
  generalize hn : values.length = n at *
  have hmod : n * b.writeSize % 2 ^ 16 < n * b.writeSize := by
    have := Nat.mod_lt (n * b.writeSize) (Nat.two_pow_pos 16)
    omega
  have hzero := ((readBulk_iff (by simp [hn]) (by simpa using h) s).mp (hread (List.replicate n 0) (by simp))).2
  have hones :=
    ((readBulk_iff (by simp [hn, complement]) (by simpa [complement] using h) s).mp
      (hread (complement (List.replicate n 0)) (by simp [complement]))).2
  rw [readBytes, valueBytes_replicate_zero, List.length_replicate] at hzero
  rw [readBytes, valueBytes_complement_zero, List.length_replicate, ← hzero] at hones
  have htail := List.append_cancel_left hones
  rw [List.drop_replicate, List.drop_replicate, List.replicate_inj] at htail
  rcases htail.2 with h0 | h0
  · omega
  · exact absurd h0 (by decide)

theorem meetsWrite_iff (s : Chip) {address : Nat} {values : List (Item b.writeSize)}
    (h : address + values.length * b.writeSize ≤ b.backingSize) :
    MeetsWrite b t s address values ↔
      values.length * b.writeSize < 2 ^ 16 ∧
        OnlyClears s.cells (b.regionStart + address) (valueBytes (complement values)) ∧
        t.Clear s.waits (writeWaits b address values.length + 1) := by
  have haddr := addr_eq h
  have hlen : (valueBytes (complement values)).length = values.length * b.writeSize := by
    rw [length_valueBytes, length_complement]
  have hwrite := fun hshort => writeChunks_guarded (t := t) (values.length + 1) (b.regionStart + address) values s
    (Nat.lt_succ_self _) (by omega) hshort
  have hbytes : ∀ (buf : List (Item b.writeSize)) (cells : Mem UInt8), buf.length = values.length →
      values.length * b.writeSize < 2 ^ 16 →
      readBytes address buf cells = cells.readBlock (b.regionStart + address) (values.length * b.writeSize) := by
    intro buf cells hbuf hshort
    rw [readBytes, length_valueBytes, hbuf, Nat.mod_eq_of_lt hshort,
      List.drop_eq_nil_of_le (by rw [length_valueBytes, hbuf]), List.append_nil]
  constructor
  · intro hm
    have hshort := short_of_reads_back h hm.reads_back
    have ht : t.Clear s.waits (writeWaits b address values.length) := by
      by_contra hn
      obtain ⟨e, s', he⟩ := (hwrite hshort).error hn
      have hs := hm.succeeds
      rw [backingStoreWriteBulk, haddr.1, he] at hs
      exact absurd hs Bool.false_ne_true
    have hread := (readBulk_iff rfl h _).mp (hm.reads_back values rfl)
    rw [backingStoreWriteBulk, haddr.1, (hwrite hshort).ok ht, hbytes values _ rfl hshort, ← hlen,
      readBlock_programmed_iff] at hread
    exact ⟨hshort, hread.2, Timing.clear_add.mpr ⟨ht, hread.1⟩⟩
  · rintro ⟨hshort, hclears, ht⟩
    obtain ⟨hw, hr⟩ := Timing.clear_add.mp ht
    have heq : backingStoreWriteBulk b t address values s =
        (true, { cells := programmed s.cells (b.regionStart + address) (valueBytes (complement values))
                 writeEnableLatch := false, waits := s.waits + writeWaits b address values.length }) := by
      rw [backingStoreWriteBulk, haddr.1, (hwrite hshort).ok hw]
      rfl
    refine ⟨by rw [heq], fun buf hbuf => ?_, fun a ha => ?_⟩
    · rw [heq, readBulk_iff hbuf (by rwa [hbuf]), hbytes buf _ hbuf hshort, ← hlen, readBlock_programmed_iff]
      exact ⟨hr, hclears⟩
    · rw [heq]
      refine programmed_of_outside ?_
      rw [BackingStore.InRegion] at ha
      omega

end Contract

/-- The store meets its contract in a call exactly when the erased region does not end with the chip, no deadline lies
behind the turn of the timer, and what is written is shorter than 64 KiB and sets no bit again. -/
theorem backing_store_iff (b : BackingStore) (t : Timing b.spiTimeout) (s : Chip)
    (reads : List (Nat × Item b.writeSize)) (address : Nat) (values : List (Item b.writeSize))
    (hreads : ∀ r ∈ reads, r.1 + b.writeSize ≤ b.backingSize)
    (hvalues : address + values.length * b.writeSize ≤ b.backingSize) :
    (MeetsErase b t s reads ↔
      b.regionStart + b.backingSize < b.size ∧ t.Clear s.waits (2 * b.blockCount + reads.length)) ∧
    (MeetsWrite b t s address values ↔
      values.length * b.writeSize < 2 ^ 16 ∧
        OnlyClears s.cells (b.regionStart + address) (valueBytes (complement values)) ∧
        t.Clear s.waits (writeWaits b address values.length + 1)) :=
  ⟨meetsErase_iff s reads hreads, meetsWrite_iff s hvalues⟩

/-- The default chip of 512 KiB, with one block of it as the region. -/
def oneBlock (blockOffset : Nat) (h : blockOffset < 8) : BackingStore where
  addressSize := 3
  pageSize := 256
  blockSize := 65536
  size := 524288
  spiTimeout := 1000
  pageSize_pos := by omega
  blockSize_pos := by omega
  size_le := by omega
  size_lt := by omega
  spiTimeout_lt := by omega
  blockOffset := blockOffset
  blockCount := 1
  bulkCount := 32
  writeSize := 8
  blockCount_pos := by omega
  bulkCount_pos := by omega
  writeSize_mem := by omega
  fits := by omega

/-- A chip that is ready at the second poll, 5 ms into the wait. -/
def promptChip : Timing 1000 where
  wait n :=
    { start := 10 * n, first := 10 * n + 1, later := [10 * n + 5], start_le := by omega
      ordered := by simp, in_time := by simp }
  ordered n := by
    intro now h
    simp only [List.mem_cons, List.not_mem_nil, or_false] at h
    show now ≤ 10 * (n + 1)
    omega

theorem promptChip_clear {count : Nat} (h : count < 400000000) : promptChip.Clear 0 count := by
  intro k hk
  show (10 * (0 + k) + 1000) / 2 ^ 32 = (10 * (0 + k) + 1) / 2 ^ 32
  rw [Nat.div_eq_of_lt (by omega), Nat.div_eq_of_lt (by omega)]

theorem first_block_meets :
    MeetsErase (oneBlock 0 (by decide)) promptChip ⟨fun _ => 0, false, 0⟩ [(0, 0), (65528, 5)] ∧
      MeetsWrite (oneBlock 0 (by decide)) promptChip ⟨fun _ => 0xFF, false, 0⟩ 248 [1, 2, 3] := by
  have h := fun s => backing_store_iff (oneBlock 0 (by decide)) promptChip s [(0, 0), (65528, 5)] 248 [1, 2, 3]
    (by decide) (by decide)
  refine ⟨(h _).1.mpr ⟨by decide, promptChip_clear (by decide)⟩, (h _).2.mpr ⟨by decide, ?_, ?_⟩⟩
  rotate_left
  · exact promptChip_clear (by decide)
  intro i hi
  rw [UInt8.and_comm, and_ones]

/-- The last block of the chip. -/
theorem last_block_not_erased :
    ¬ ∀ (b : BackingStore) (t : Timing b.spiTimeout) (s : Chip) (reads : List (Nat × Item b.writeSize))
        (address : Nat) (values : List (Item b.writeSize)), (∀ r ∈ reads, r.1 + b.writeSize ≤ b.backingSize) →
      address + values.length * b.writeSize ≤ b.backingSize →
      MeetsErase b t s reads ∧ ((∀ a, b.InRegion a → s.cells a = 0xFF) → MeetsWrite b t s address values) := by
  intro h
  have herase := (h (oneBlock 7 (by decide)) promptChip ⟨fun _ => 0, false, 0⟩ [] 0 [] (by simp) (by simp)).1
  have hend := ((meetsErase_iff _ [] (by simp)).mp herase).1
  exact absurd hend (by decide)

end Flash
end VialQmk
