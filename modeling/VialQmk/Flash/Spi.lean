import VialQmk.Lib.Guarded
import VialQmk.Lib.LittleEndian
import VialQmk.Lib.Mem

/-!
# Flash.Spi

The driver of the external SPI flash (`flash_spi.c`) and the NOR chip behind it.

* `ExternalFlash`: the `EXTERNAL_FLASH_*` constants. The sector commands are left out, the backing store uses blocks.
* `Chip`: the cells and the write enable latch. `Chip.receive` is what a transaction makes of the bytes it is sent.
* `Timing`: the readings of the clock while the driver waits for the chip. The chip is ready before the time out in
  every wait, so that a wait can only fail over the 32 bits of `timer_read32`.
* `Timing.Clear`: no deadline of the next waits lies behind the turn of the timer.

The SPI bus itself works: `spi_start` does not fail.
-/

namespace VialQmk
namespace Flash

open Lib

structure ExternalFlash where
  addressSize : Nat
  pageSize : Nat
  blockSize : Nat
  size : Nat
  /-- `EXTERNAL_FLASH_SPI_TIMEOUT`, an `int`. -/
  spiTimeout : Nat
  pageSize_pos : 0 < pageSize
  blockSize_pos : 0 < blockSize
  /-- The bytes of an address reach every cell. -/
  size_le : size ≤ 256 ^ addressSize
  size_lt : size < 2 ^ 32
  spiTimeout_lt : spiTimeout < 2 ^ 31

inductive FlashStatus
  | error
  | timeout
  | badAddress
  | busy
  deriving DecidableEq, Repr

def FLASH_CMD_WREN : UInt8 := 0x06
def FLASH_CMD_WRDI : UInt8 := 0x04
def FLASH_CMD_PP : UInt8 := 0x02
def FLASH_CMD_BE : UInt8 := 0xD8
def FLASH_CMD_READ : UInt8 := 0x03

structure Chip where
  cells : Mem UInt8
  /-- `FLASH_FLAG_WEL`. -/
  writeEnableLatch : Bool
  /-- How often the driver has waited for the chip so far. -/
  waits : Nat

def timerRead32 (ms : Nat) : Nat := ms % 2 ^ 32

/-- One wait: when the deadline was set, and when it was compared with the timer. The chip is busy at every poll but the
last. -/
structure Wait (timeout : Nat) where
  start : Nat
  first : Nat
  later : List Nat
  start_le : start ≤ first
  ordered : (first :: later).Pairwise (· ≤ ·)
  in_time : ∀ now ∈ first :: later, now < start + timeout

structure Timing (timeout : Nat) where
  wait : Nat → Wait timeout
  ordered : ∀ n, ∀ now ∈ (wait n).first :: (wait n).later, now ≤ (wait (n + 1)).start

/-- The deadline is on the same turn of the timer as the first comparison with it. -/
def Wait.InOneTurn {timeout : Nat} (w : Wait timeout) : Prop := (w.start + timeout) / 2 ^ 32 = w.first / 2 ^ 32
deriving Decidable

def Timing.Clear {timeout : Nat} (t : Timing timeout) (start count : Nat) : Prop :=
  ∀ k, k < count → (t.wait (start + k)).InOneTurn

abbrev Driver := EStateM FlashStatus Chip

section Chip

variable (f : ExternalFlash)

/-- A page program clears bits only, and its address counter wraps inside the page. -/
def pageProgram (cells : Mem UInt8) (addr : Nat) : List UInt8 → Mem UInt8
  | [] => cells
  | b :: bs =>
    pageProgram (Function.update cells addr (cells addr &&& b))
      (addr / f.pageSize * f.pageSize + (addr + 1) % f.pageSize) bs

def blockErase (cells : Mem UInt8) (addr : Nat) : Mem UInt8 :=
  fun a => if a / f.blockSize = addr / f.blockSize then 0xFF else cells a

def receivedAddr (bytes : List UInt8) : Nat := leNat (bytes.take f.addressSize).reverse

/-- A command that changes cells needs the latch, and clears it. -/
def Chip.receive (s : Chip) : List UInt8 → Chip
  | [] => s
  | cmd :: bytes =>
    if cmd = FLASH_CMD_WREN then { s with writeEnableLatch := true }
    else if cmd = FLASH_CMD_WRDI then { s with writeEnableLatch := false }
    else if s.writeEnableLatch = false then s
    else if cmd = FLASH_CMD_PP then
      { s with
        cells := pageProgram f s.cells (receivedAddr f bytes) (bytes.drop f.addressSize)
        writeEnableLatch := false }
    else if cmd = FLASH_CMD_BE then
      { s with cells := blockErase f s.cells (receivedAddr f bytes), writeEnableLatch := false }
    else s

/-- What the chip answers to a read, as many bytes as are clocked out. -/
def Chip.answer (s : Chip) (bytes : List UInt8) (length : Nat) : List UInt8 :=
  s.cells.readBlock (receivedAddr f bytes) length

end Chip

section Driver

variable (f : ExternalFlash) (t : Timing f.spiTimeout)

/-- `flash_is_busy` answers at every check, and the last of them finds the chip ready. -/
def pollUntilReady (deadline : Nat) : Nat → List Nat → Driver Unit
  | now, [] => if deadline ≤ timerRead32 now then throw .timeout else pure ()
  | now, next :: later =>
    if deadline ≤ timerRead32 now then throw .timeout else pollUntilReady deadline next later

def spiFlashWaitWhileBusy : Driver Unit := fun s =>
  pollUntilReady ((timerRead32 (t.wait s.waits).start + f.spiTimeout) % 2 ^ 32)
    (t.wait s.waits).first (t.wait s.waits).later { s with waits := s.waits + 1 }

def spiFlashWriteEnable : Driver Unit := fun s => .ok () (s.receive f [FLASH_CMD_WREN])

def spiFlashWriteDisable : Driver Unit := fun s => .ok () (s.receive f [FLASH_CMD_WRDI])

/-- The `buffer` of `spi_flash_transaction` behind the command. -/
def addrBytes (addr : Nat) : List UInt8 := (leBytes f.addressSize addr).reverse

/-- A transaction without an answer; the `length` of `spi_transmit` is a `uint16_t`. -/
def spiFlashTransaction (cmd : UInt8) (addr : Nat) (data : List UInt8) : Driver Unit := fun s =>
  .ok () (s.receive f (cmd :: addrBytes f addr ++ data.take (data.length % 2 ^ 16)))

/-- The transaction of `FLASH_CMD_READ` into a buffer; the `length` of `spi_receive` is a `uint16_t` as well. -/
def spiFlashRead (addr : Nat) (buf : List UInt8) : Driver (List UInt8) := fun s =>
  .ok (s.answer f (addrBytes f addr) (buf.length % 2 ^ 16) ++ buf.drop (buf.length % 2 ^ 16)) s

def flashEraseBlock (addr : Nat) : Driver Unit :=
  if (addr + f.blockSize) % 2 ^ 32 ≥ f.size ∨ addr % f.blockSize ≠ 0 then throw .error
  else do
    spiFlashWaitWhileBusy f t
    spiFlashWriteEnable f
    spiFlashTransaction f FLASH_CMD_BE addr []
    spiFlashWaitWhileBusy f t

/-- What the buffer holds after a read that succeeds; `backingStoreReadBulk` has the zeros of one that fails. -/
def flashReadRange (addr : Nat) (buf : List UInt8) : Driver (List UInt8) := do
  spiFlashWaitWhileBusy f t
  spiFlashRead f addr buf

def writeLength (addr len : Nat) : Nat := min (f.pageSize - addr % f.pageSize) len

/-- The loop of `flash_write_range`. A round writes a byte at least, so that there are no more rounds than bytes. -/
def writePages : Nat → Nat → List UInt8 → Driver Unit
  | 0, _, _ => pure ()
  | rounds + 1, addr, data =>
    if data.length = 0 then pure ()
    else do
      spiFlashWaitWhileBusy f t
      spiFlashWriteEnable f
      spiFlashTransaction f FLASH_CMD_PP addr (data.take (writeLength f addr data.length))
      writePages rounds ((addr + writeLength f addr data.length) % 2 ^ 32) (data.drop (writeLength f addr data.length))

def flashWriteRange (addr : Nat) (data : List UInt8) : Driver Unit := do
  writePages f t data.length addr data
  spiFlashWaitWhileBusy f t
  spiFlashWriteDisable f

end Driver

section Clear

variable {timeout : Nat} {t : Timing timeout}

theorem Timing.clear_zero (start : Nat) : t.Clear start 0 := fun k hk => absurd hk (Nat.not_lt_zero k)

theorem Timing.clear_one {start : Nat} : t.Clear start 1 ↔ (t.wait start).InOneTurn := by
  constructor
  · intro h
    exact h 0 Nat.one_pos
  · intro h k hk
    rw [show k = 0 by omega]
    exact h

theorem Timing.clear_add {start m n : Nat} : t.Clear start (m + n) ↔ t.Clear start m ∧ t.Clear (start + m) n := by
  constructor
  · intro h
    refine ⟨fun k hk => h k (by omega), fun k hk => ?_⟩
    rw [Nat.add_assoc]
    exact h (m + k) (by omega)
  · rintro ⟨hm, hn⟩ k hk
    by_cases h : k < m
    · exact hm k h
    · have h' := hn (k - m) (by omega)
      rwa [show start + m + (k - m) = start + k by omega] at h'

end Clear

section Wait

variable {f : ExternalFlash} {t : Timing f.spiTimeout}

theorem pollUntilReady_ready {deadline : Nat} (s : Chip) (later : List Nat) :
    ∀ now, (∀ reading ∈ now :: later, timerRead32 reading < deadline) →
      pollUntilReady deadline now later s = .ok () s := by
  induction later with
  | nil =>
    intro now h
    have hnow := h now List.mem_cons_self
    rw [pollUntilReady, if_neg (by omega)]
    rfl
  | cons next later ih =>
    intro now h
    have hnow := h now List.mem_cons_self
    rw [pollUntilReady, if_neg (by omega)]
    exact ih next fun reading hr => h reading (List.mem_cons_of_mem _ hr)

theorem pollUntilReady_late {deadline now : Nat} (s : Chip) (later : List Nat) (h : deadline ≤ timerRead32 now) :
    pollUntilReady deadline now later s = .error .timeout s := by
  cases later with
  | nil =>
    rw [pollUntilReady, if_pos h]
    rfl
  | cons next later =>
    rw [pollUntilReady, if_pos h]
    rfl

theorem deadline_le_iff {start now timeout : Nat} (hstart : start ≤ now) (hnow : now < start + timeout)
    (ht : timeout < 2 ^ 31) :
    timerRead32 now < (timerRead32 start + timeout) % 2 ^ 32 ↔ (start + timeout) / 2 ^ 32 = now / 2 ^ 32 := by
  rw [timerRead32, timerRead32, Nat.mod_add_mod]
  omega

theorem wait_guarded (s : Chip) :
    Guarded (t.Clear s.waits 1) (spiFlashWaitWhileBusy f t) s () { s with waits := s.waits + 1 } := by
  refine Guarded.congr ?_ Timing.clear_one.symm
  have hw := (t.wait s.waits).start_le
  have hfirst := deadline_le_iff hw ((t.wait s.waits).in_time _ List.mem_cons_self) f.spiTimeout_lt
  constructor
  · intro h
    rw [Wait.InOneTurn] at h
    refine pollUntilReady_ready _ _ _ fun reading hr => ?_
    have hge : (t.wait s.waits).first ≤ reading := by
      rcases List.mem_cons.mp hr with rfl | hr
      · exact le_rfl
      · exact List.rel_of_pairwise_cons (t.wait s.waits).ordered hr
    have hlt := (t.wait s.waits).in_time reading hr
    rw [deadline_le_iff (hw.trans hge) hlt f.spiTimeout_lt]
    omega
  · intro h
    exact ⟨_, _, pollUntilReady_late _ _ (Nat.not_lt.mp (hfirst.not.mpr h))⟩

end Wait

section Receive

variable {f : ExternalFlash}

theorem receivedAddr_addrBytes {addr : Nat} (h : addr < f.size) (data : List UInt8) :
    receivedAddr f (addrBytes f addr ++ data) = addr := by
  have hlen : (addrBytes f addr).length = f.addressSize := by simp [addrBytes]
  rw [receivedAddr, ← hlen, List.take_left, addrBytes, List.reverse_reverse, leNat_leBytes_of_lt]
  exact h.trans_le f.size_le

theorem drop_addrBytes (addr : Nat) (data : List UInt8) : (addrBytes f addr ++ data).drop f.addressSize = data := by
  have hlen : (addrBytes f addr).length = f.addressSize := by simp [addrBytes]
  rw [← hlen, List.drop_left]

theorem writeEnable_eq (s : Chip) : spiFlashWriteEnable f s = .ok () { s with writeEnableLatch := true } := rfl

theorem writeDisable_eq (s : Chip) : spiFlashWriteDisable f s = .ok () { s with writeEnableLatch := false } := rfl

theorem eraseTransaction_eq {addr : Nat} (h : addr < f.size) {s : Chip} (hs : s.writeEnableLatch = true) :
    spiFlashTransaction f FLASH_CMD_BE addr [] s =
      .ok () { s with cells := blockErase f s.cells addr, writeEnableLatch := false } := by
  have haddr := receivedAddr_addrBytes h []
  rw [List.append_nil] at haddr
  simp [spiFlashTransaction, Chip.receive, hs, haddr, FLASH_CMD_BE, FLASH_CMD_WREN, FLASH_CMD_WRDI, FLASH_CMD_PP]

theorem programTransaction_eq {addr : Nat} (h : addr < f.size) {data : List UInt8} (hdata : data.length < 2 ^ 16)
    {s : Chip} (hs : s.writeEnableLatch = true) :
    spiFlashTransaction f FLASH_CMD_PP addr data s =
      .ok () { s with cells := pageProgram f s.cells addr data, writeEnableLatch := false } := by
  have haddr := receivedAddr_addrBytes h data
  have hdrop := drop_addrBytes (f := f) addr data
  rw [spiFlashTransaction, Nat.mod_eq_of_lt hdata, List.take_length]
  simp [Chip.receive, hs, haddr, hdrop, FLASH_CMD_PP, FLASH_CMD_WREN, FLASH_CMD_WRDI]

theorem read_eq {addr : Nat} {buf : List UInt8} (h : addr + buf.length ≤ f.size) (s : Chip) :
    spiFlashRead f addr buf s =
      .ok (s.cells.readBlock addr (buf.length % 2 ^ 16) ++ buf.drop (buf.length % 2 ^ 16)) s := by
  cases buf with
  | nil => rfl
  | cons x xs =>
    rw [List.length_cons] at h
    have haddr := @receivedAddr_addrBytes f addr (by omega) []
    rw [List.append_nil] at haddr
    rw [spiFlashRead, Chip.answer, haddr]

end Receive

section Program

variable {f : ExternalFlash}

def programmed (cells : Mem UInt8) (addr : Nat) (data : List UInt8) : Mem UInt8 :=
  fun a => if addr ≤ a then cells a &&& data.getD (a - addr) 0xFF else cells a

theorem and_ones (b : UInt8) : b &&& 0xFF = b := by
  apply UInt8.toBitVec_inj.mp
  exact BitVec.and_allOnes

theorem programmed_nil (cells : Mem UInt8) (addr : Nat) : programmed cells addr [] = cells := by
  funext a
  simp [programmed, and_ones]

theorem programmed_cons (cells : Mem UInt8) (addr : Nat) (b : UInt8) (bs : List UInt8) :
    programmed (Function.update cells addr (cells addr &&& b)) (addr + 1) bs = programmed cells addr (b :: bs) := by
  funext a
  rw [programmed, programmed]
  by_cases h : addr + 1 ≤ a
  · rw [if_pos h, if_pos (by omega), Function.update_of_ne (by omega), show a - addr = a - (addr + 1) + 1 by omega,
      List.getD_cons_succ]
  · rw [if_neg h]
    by_cases ha : a = addr
    · subst ha
      simp
    · rw [Function.update_of_ne ha, if_neg (by omega)]

theorem programmed_append (bs cs : List UInt8) :
    ∀ cells addr, programmed (programmed cells addr bs) (addr + bs.length) cs = programmed cells addr (bs ++ cs) := by
  induction bs with
  | nil =>
    intro cells addr
    rw [programmed_nil]
    rfl
  | cons b bs ih =>
    intro cells addr
    rw [← programmed_cons, List.length_cons, show addr + (bs.length + 1) = addr + 1 + bs.length by omega, ih,
      programmed_cons, List.cons_append]

theorem programmed_of_outside {cells : Mem UInt8} {addr a : Nat} {data : List UInt8}
    (h : a < addr ∨ addr + data.length ≤ a) : programmed cells addr data a = cells a := by
  rw [programmed]
  rcases h with h | h
  · rw [if_neg (by omega)]
  · split
    · rw [List.getD_eq_default _ _ (by omega), and_ones]
    · rfl

theorem pageProgram_eq (data : List UInt8) :
    ∀ cells addr, addr % f.pageSize + data.length ≤ f.pageSize →
      pageProgram f cells addr data = programmed cells addr data := by
  induction data with
  | nil =>
    intro cells addr _
    exact (programmed_nil cells addr).symm
  | cons b bs ih =>
    intro cells addr h
    rw [List.length_cons] at h
    rw [pageProgram, ← programmed_cons]
    cases bs with
    | nil => rw [programmed_nil, pageProgram]
    | cons c cs =>
      rw [List.length_cons] at h
      have hone : (addr + 1) % f.pageSize = addr % f.pageSize + 1 := by
        rw [← Nat.mod_add_mod, Nat.mod_eq_of_lt (by omega)]
      have hnext : addr / f.pageSize * f.pageSize + (addr + 1) % f.pageSize = addr + 1 := by
        have := Nat.div_add_mod' addr f.pageSize
        omega
      rw [hnext]
      refine ih _ _ ?_
      rw [hone, List.length_cons]
      omega

def pageCount (f : ExternalFlash) (addr len : Nat) : Nat :=
  if len = 0 then 0 else (addr % f.pageSize + len - 1) / f.pageSize + 1

theorem pageCount_step {addr len : Nat} (h : len ≠ 0) :
    pageCount f addr len = 1 + pageCount f (addr + writeLength f addr len) (len - writeLength f addr len) := by
  have hP := f.pageSize_pos
  have hmod := Nat.mod_lt addr hP
  rw [pageCount, if_neg h, writeLength]
  by_cases hlen : len ≤ f.pageSize - addr % f.pageSize
  · rw [Nat.min_eq_right hlen, Nat.sub_self, pageCount, if_pos rfl, Nat.div_eq_of_lt (by omega)]
  · rw [Nat.min_eq_left (by omega), pageCount, if_neg (by omega)]
    have hzero : (addr + (f.pageSize - addr % f.pageSize)) % f.pageSize = 0 := by
      rw [show addr + (f.pageSize - addr % f.pageSize) = addr / f.pageSize * f.pageSize + f.pageSize by
        have := Nat.div_add_mod' addr f.pageSize
        omega, Nat.add_mod_right, Nat.mul_mod_left]
    rw [hzero, show addr % f.pageSize + len - 1 =
      0 + (len - (f.pageSize - addr % f.pageSize)) - 1 + f.pageSize by omega, Nat.add_div_right _ hP]
    omega

end Program

section Commands

variable {f : ExternalFlash} {t : Timing f.spiTimeout}

theorem flashEraseBlock_guarded {addr : Nat} (h : addr + f.blockSize < f.size) (haligned : addr % f.blockSize = 0)
    (s : Chip) : Guarded (t.Clear s.waits 2) (flashEraseBlock f t addr) s ()
      { cells := blockErase f s.cells addr, writeEnableLatch := false, waits := s.waits + 2 } := by
  have hsize := f.size_lt
  rw [flashEraseBlock, if_neg (by rw [Nat.mod_eq_of_lt (by omega)]; omega)]
  refine Guarded.congr ((wait_guarded s).bind fun _ => ?_) (Timing.clear_add (m := 1) (n := 1)).symm
  refine Guarded.step (writeEnable_eq _) ?_
  exact Guarded.step (eraseTransaction_eq (by omega) rfl) (wait_guarded (t := t) ⟨_, false, s.waits + 1⟩)

theorem flashEraseBlock_over {addr : Nat} (h : f.size ≤ addr + f.blockSize) (hlt : addr + f.blockSize < 2 ^ 32)
    (s : Chip) : flashEraseBlock f t addr s = .error .error s := by
  rw [flashEraseBlock, if_pos (.inl (by rw [Nat.mod_eq_of_lt hlt]; exact h))]
  rfl

theorem flashReadRange_guarded {addr : Nat} {buf : List UInt8} (h : addr + buf.length ≤ f.size) (s : Chip) :
    Guarded (t.Clear s.waits 1) (flashReadRange f t addr buf) s
      (s.cells.readBlock addr (buf.length % 2 ^ 16) ++ buf.drop (buf.length % 2 ^ 16))
      { s with waits := s.waits + 1 } := by
  refine Guarded.congr ((wait_guarded s).bind fun _ => Guarded.of_ok ?_) (and_iff_left trivial)
  exact read_eq h _

theorem writePages_guarded (rounds : Nat) :
    ∀ addr data s, data.length ≤ rounds → addr + data.length ≤ f.size → data.length < 2 ^ 16 →
      Guarded (t.Clear s.waits (pageCount f addr data.length)) (writePages f t rounds addr data) s ()
        { cells := programmed s.cells addr data
          writeEnableLatch := if data.length = 0 then s.writeEnableLatch else false
          waits := s.waits + pageCount f addr data.length } := by
  induction rounds with
  | zero =>
    intro addr data s hr _ _
    obtain rfl : data = [] := List.length_eq_zero_iff.mp (by omega)
    rw [programmed_nil]
    exact Guarded.congr (Guarded.pure () s) (iff_of_true trivial (Timing.clear_zero _))
  | succ rounds ih =>
    intro addr data s hr hsize hshort
    by_cases hd : data.length = 0
    · obtain rfl : data = [] := List.length_eq_zero_iff.mp hd
      rw [programmed_nil]
      exact Guarded.congr (Guarded.pure () s) (iff_of_true trivial (Timing.clear_zero _))
    · have hlt := f.size_lt
      have hmod := Nat.mod_lt addr f.pageSize_pos
      generalize hw : writeLength f addr data.length = w
      have hw' : 0 < w ∧ w ≤ data.length ∧ addr % f.pageSize + w ≤ f.pageSize := by
        rw [← hw, writeLength]
        omega
      have htake : (data.take w).length = w := by rw [List.length_take]; omega
      rw [writePages, if_neg hd, hw, Nat.mod_eq_of_lt (by omega), if_neg hd, pageCount_step hd, hw]
      refine Guarded.congr ((wait_guarded s).bind fun _ => ?_) Timing.clear_add.symm
      refine Guarded.step (writeEnable_eq _) (Guarded.step (programTransaction_eq (by omega) (by omega) rfl) ?_)
      have hrest := ih (addr + w) (data.drop w)
        { cells := pageProgram f s.cells addr (data.take w), writeEnableLatch := false, waits := s.waits + 1 }
        (by rw [List.length_drop]; omega) (by rw [List.length_drop]; omega) (by rw [List.length_drop]; omega)
      rw [pageProgram_eq _ _ _ (by omega)] at hrest ⊢
      have happ := programmed_append (data.take w) (data.drop w) s.cells addr
      rw [htake, List.take_append_drop] at happ
      simp only [List.length_drop, happ, ite_self] at hrest
      rwa [← Nat.add_assoc]

theorem flashWriteRange_guarded {addr : Nat} {data : List UInt8} (h : addr + data.length ≤ f.size)
    (hshort : data.length < 2 ^ 16) (s : Chip) :
    Guarded (t.Clear s.waits (pageCount f addr data.length + 1)) (flashWriteRange f t addr data) s ()
      { cells := programmed s.cells addr data, writeEnableLatch := false
        waits := s.waits + (pageCount f addr data.length + 1) } := by
  refine Guarded.congr ((writePages_guarded _ addr data s le_rfl h hshort).bind fun _ => ?_) Timing.clear_add.symm
  refine Guarded.congr ((wait_guarded _).bind fun _ => Guarded.of_ok (writeDisable_eq _)) (and_iff_left trivial)

end Commands

end Flash
end VialQmk
