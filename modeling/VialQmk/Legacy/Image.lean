import VialQmk.Legacy.Log
import VialQmk.Lib.Cuts

/-!
# Legacy.Image

Flash images with a log that `EEPROM_Init` reads back, and the operations that lead from one to the next.

* `Image f flash es`: the log holds the entries `es` and is erased behind them, and the compacted half-word of every
  entry is programmed.
* `contents`: what `EEPROM_Init` loads from such an image.
* `Performs`: a step of the driver as the list of its flash operations.
-/

namespace VialQmk
namespace Legacy

open Lib

structure Image (f : Fee) (flash : Mem UInt16) (es : List Entry) : Prop where
  valid : ∀ e ∈ es, e.Valid f
  programmed : ∀ e ∈ es, flash e.slot ≠ FEE_EMPTY_WORD
  fits : f.logBase + (encodeLog es).length ≤ f.logLast
  log : flash.readBlock f.logBase (encodeLog es).length = encodeLog es
  erased : ∀ i, f.logBase + (encodeLog es).length ≤ i → i < f.logLast → flash i = FEE_EMPTY_WORD

def contents (f : Fee) (flash : Mem UInt16) (es : List Entry) : Mem UInt8 := applyLog es (loadCompacted f flash)

section Contents

variable {f : Fee}

theorem Fee.logBase_le (f : Fee) : f.logBase ≤ f.logLast := by
  rw [Fee.logBase, Fee.logLast]
  omega

theorem Fee.two_mul_logBase (f : Fee) : 2 * f.logBase = f.densityBytes := by
  have := f.density_even
  rw [Fee.logBase]
  omega

theorem Entry.Valid.slot_lt {e : Entry} (h : e.Valid f) : e.slot < f.logBase := by
  have := f.two_mul_logBase
  cases e with
  | byte address value =>
    have := h.2
    rw [Entry.slot]
    omega
  | word address value =>
    have := h.2.2
    rw [Entry.slot]
    omega
  | torn address =>
    have := h.2.2
    rw [Entry.slot]
    omega

variable {a : Nat}

theorem Entry.apply_of_ne {e : Entry} (h : e.Valid f) (buf : Mem UInt8) (ha : a / 2 ≠ e.slot) :
    e.apply buf a = buf a := by
  cases e with
  | byte address value =>
    rw [Entry.slot] at ha
    exact Function.update_of_ne (by rintro rfl; exact ha rfl) _ _
  | word address value =>
    obtain ⟨-, heven, -⟩ := h
    rw [Entry.slot] at ha
    rw [Entry.apply, setWord, Function.update_of_ne (by omega), Function.update_of_ne (by omega)]
  | torn address => rfl

theorem Entry.apply_congr (e : Entry) {buf buf' : Mem UInt8} (h : buf a = buf' a) :
    e.apply buf a = e.apply buf' a := by
  cases e with
  | byte address value => simp [Entry.apply, Function.update_apply, h]
  | word address value => simp [Entry.apply, setWord, Function.update_apply, h]
  | torn address => exact h

theorem applyLog_of_ne (es : List Entry) (h : ∀ e ∈ es, e.Valid f) (ha : ∀ e ∈ es, a / 2 ≠ e.slot) :
    ∀ buf, applyLog es buf a = buf a := by
  induction es with
  | nil =>
    intro buf
    rfl
  | cons e es ih =>
    intro buf
    have hrest := ih (fun e' he => h e' (List.mem_cons_of_mem _ he)) fun e' he => ha e' (List.mem_cons_of_mem _ he)
    exact (hrest _).trans (Entry.apply_of_ne (h e List.mem_cons_self) buf (ha e List.mem_cons_self))

theorem applyLog_congr (es : List Entry) :
    ∀ {buf buf' : Mem UInt8}, buf a = buf' a → applyLog es buf a = applyLog es buf' a := by
  induction es with
  | nil =>
    intro buf buf' h
    exact h
  | cons e es ih =>
    intro buf buf' h
    exact ih (e.apply_congr h)

theorem contents_append (flash : Mem UInt16) (es es' : List Entry) :
    contents f flash (es ++ es') = applyLog es' (contents f flash es) := applyLog_append es es' _

theorem contents_of_ge {flash : Mem UInt16} {es : List Entry} (h : ∀ e ∈ es, e.Valid f) (ha : f.densityBytes ≤ a) :
    contents f flash es a = 0 := by
  have := f.two_mul_logBase
  rw [contents, applyLog_of_ne es h (fun e he => by have := (h e he).slot_lt; omega), loadCompacted, if_neg (by omega)]

theorem loadCompacted_congr {flash flash' : Mem UInt16} (h : flash (a / 2) = flash' (a / 2)) :
    loadCompacted f flash a = loadCompacted f flash' a := by
  rw [loadCompacted, loadCompacted, h]

theorem loadCompacted_complement {flash : Mem UInt16} {buf : Mem UInt8} {a : Nat} (ha : a < f.densityBytes)
    (h : flash (a / 2) = ~~~wordAt buf (a / 2 * 2)) : loadCompacted f flash a = buf a := by
  rw [loadCompacted, if_pos ha, h, UInt16.not_not, wordAt, lowByte_ofBytes, highByte_ofBytes]
  split
  · rw [show a / 2 * 2 = a by omega]
  · rw [show a / 2 * 2 + 1 = a by omega]

theorem setWord_of_agree {buf buf' : Mem UInt8} {address : Nat} (heven : address % 2 = 0)
    (h : ∀ a, a / 2 ≠ address / 2 → buf a = buf' a) : setWord buf address (wordAt buf' address) = buf' := by
  funext a
  rw [setWord, wordAt, lowByte_ofBytes, highByte_ofBytes, Function.update_apply, Function.update_apply]
  split_ifs with hhigh hlow
  · rw [hhigh]
  · rw [hlow]
  · exact h a (by omega)

end Contents

section Init

variable {f : Fee}

theorem Image.writeLog_eq {flash : Mem UInt16} {es : List Entry} (h : Image f flash es) :
    writeLog f flash =
      encodeLog es ++ List.replicate (f.logLast - f.logBase - (encodeLog es).length) FEE_EMPTY_WORD := by
  have hfits := h.fits
  rw [writeLog, show f.logLast - f.logBase =
    (encodeLog es).length + (f.logLast - f.logBase - (encodeLog es).length) by omega, Mem.readBlock_append, h.log,
    Nat.add_sub_cancel_left]
  congr 1
  refine List.eq_replicate_iff.mpr ⟨Mem.readBlock_length _ _ _, fun w hw => ?_⟩
  obtain ⟨i, hi, rfl⟩ := Mem.mem_readBlock.mp hw
  exact h.erased _ (by omega) (by omega)

theorem Image.init_eq {s : Eeprom} {es : List Entry} (h : Image f s.flash es) :
    eepromInit f s =
      { s with dataBuf := contents f s.flash es, emptySlot := f.logBase + (encodeLog es).length } := by
  have hreplay := replayLog_entries es h.valid
    (List.replicate (f.logLast - f.logBase - (encodeLog es).length) FEE_EMPTY_WORD) (loadCompacted f s.flash)
  rw [replayLog_empty, ← h.writeLog_eq] at hreplay
  rw [eepromInit, hreplay]
  rfl

end Init

section Operations

variable (f : Fee)

def eraseOps : Nat → Nat → List FlashOp
  | _, 0 => []
  | page, count + 1 => .erasePage page :: eraseOps (page + 1) count

def programOps (buf : Mem UInt8) : Nat → Nat → List FlashOp
  | _, 0 => []
  | slot, count + 1 =>
    (if wordAt buf (2 * slot) ≠ 0 then [.programHalfWord slot (~~~wordAt buf (2 * slot))] else []) ++
      programOps buf (slot + 1) count

def appendOps : Nat → List UInt16 → List FlashOp
  | _, [] => []
  | slot, w :: ws => .programHalfWord slot w :: appendOps (slot + 1) ws

def compactOps (buf : Mem UInt8) : List FlashOp := eraseOps 0 f.pageCount ++ programOps buf 0 f.logBase

structure Performs (s : Eeprom) (ops : List FlashOp) (s' : Eeprom) : Prop where
  flash : s'.flash = runAll (FlashOp.run f) s.flash ops
  trace : s'.trace = s.trace ++ ops

/-- `FLASH_ProgramHalfWord` is meant for erased half-words of the region. -/
def FlashOp.Legal (flash : Mem UInt16) : FlashOp → Prop
  | .erasePage page => page < f.pageCount
  | .programHalfWord slot _ => slot < f.logLast ∧ flash slot = FEE_EMPTY_WORD

end Operations

section Operations

variable {f : Fee}

theorem Performs.refl (s : Eeprom) : Performs f s [] s := ⟨rfl, (List.append_nil _).symm⟩

theorem Performs.trans {s s' s'' : Eeprom} {ops ops' : List FlashOp} (h : Performs f s ops s')
    (h' : Performs f s' ops' s'') : Performs f s (ops ++ ops') s'' :=
  ⟨by rw [h'.flash, h.flash, runAll_append], by rw [h'.trace, h.trace, List.append_assoc]⟩

theorem performs_perform (s : Eeprom) (op : FlashOp) : Performs f s [op] (s.perform f op) := ⟨rfl, rfl⟩

theorem performs_erasePages (count : Nat) :
    ∀ page s, Performs f s (eraseOps page count) (erasePages f page count s) ∧
      (erasePages f page count s).dataBuf = s.dataBuf := by
  induction count with
  | zero =>
    intro page s
    exact ⟨Performs.refl s, rfl⟩
  | succ count ih =>
    intro page s
    obtain ⟨hp, hd⟩ := ih (page + 1) (s.perform f (.erasePage page))
    exact ⟨(performs_perform s _).trans hp, hd⟩

theorem performs_programCompacted (count : Nat) :
    ∀ slot s, Performs f s (programOps s.dataBuf slot count) (programCompacted f slot count s) ∧
      (programCompacted f slot count s).dataBuf = s.dataBuf ∧
      (programCompacted f slot count s).emptySlot = s.emptySlot := by
  induction count with
  | zero =>
    intro slot s
    exact ⟨Performs.refl s, rfl, rfl⟩
  | succ count ih =>
    intro slot s
    rw [programOps, programCompacted]
    split
    · obtain ⟨hp, hrest⟩ := ih (slot + 1) (s.perform f (.programHalfWord slot (~~~wordAt s.dataBuf (2 * slot))))
      exact ⟨(performs_perform s _).trans hp, hrest⟩
    · exact ih (slot + 1) s

theorem performs_eepromCompact (s : Eeprom) :
    Performs f s (compactOps f s.dataBuf) (eepromCompact f s) ∧ (eepromCompact f s).dataBuf = s.dataBuf ∧
      (eepromCompact f s).emptySlot = f.logBase := by
  obtain ⟨he, hd⟩ := performs_erasePages (f := f) f.pageCount 0 s
  obtain ⟨hp, hd', hslot⟩ := performs_programCompacted (f := f) f.logBase 0 (eepromClear f s)
  have hclear : Performs f s (eraseOps 0 f.pageCount) (eepromClear f s) := ⟨he.flash, he.trace⟩
  have hbuf : (eepromClear f s).dataBuf = s.dataBuf := hd
  rw [hbuf] at hp hd'
  exact ⟨hclear.trans hp, hd', hslot⟩

theorem performs_appendEntry (ws : List UInt16) :
    ∀ s, Performs f s (appendOps s.emptySlot ws) (appendEntry f ws s) ∧ (appendEntry f ws s).dataBuf = s.dataBuf ∧
      (appendEntry f ws s).emptySlot = s.emptySlot + ws.length := by
  induction ws with
  | nil =>
    intro s
    exact ⟨Performs.refl s, rfl, rfl⟩
  | cons w ws ih =>
    intro s
    obtain ⟨hp, hd, hslot⟩ := ih { s.perform f (.programHalfWord s.emptySlot w) with emptySlot := s.emptySlot + 1 }
    have hstep : Performs f s [.programHalfWord s.emptySlot w]
        { s.perform f (.programHalfWord s.emptySlot w) with emptySlot := s.emptySlot + 1 } := ⟨rfl, rfl⟩
    refine ⟨hstep.trans hp, hd, hslot.trans ?_⟩
    show s.emptySlot + 1 + ws.length = s.emptySlot + (ws.length + 1)
    omega

end Operations

section Effects

variable {f : Fee}

theorem runAll_eraseOps (count : Nat) :
    ∀ page flash i, runAll (FlashOp.run f) flash (eraseOps page count) i =
      if page * f.pageSize ≤ 2 * i ∧ 2 * i < (page + count) * f.pageSize then FEE_EMPTY_WORD else flash i := by
  induction count with
  | zero =>
    intro page flash i
    rw [Nat.add_zero, if_neg (by omega)]
    rfl
  | succ count ih =>
    intro page flash i
    have hpage : (page + 1) * f.pageSize = page * f.pageSize + f.pageSize := Nat.succ_mul _ _
    have hle : (page + 1) * f.pageSize ≤ (page + (count + 1)) * f.pageSize := Nat.mul_le_mul_right _ (by omega)
    refine (ih (page + 1) _ i).trans ?_
    simp only [FlashOp.run]
    rw [show page + 1 + count = page + (count + 1) by omega]
    split_ifs <;> first | rfl | omega

theorem runAll_eraseOps_all (flash : Mem UInt16) {i : Nat} (h : i < f.logLast) :
    runAll (FlashOp.run f) flash (eraseOps 0 f.pageCount) i = FEE_EMPTY_WORD := by
  have hfits := f.fits
  rw [Fee.logLast] at h
  rw [runAll_eraseOps, Nat.zero_mul, Nat.zero_add, if_pos ⟨Nat.zero_le _, by omega⟩]

theorem mem_programOps {buf : Mem UInt8} {op : FlashOp} (count : Nat) :
    ∀ slot, op ∈ programOps buf slot count →
      ∃ i, slot ≤ i ∧ i < slot + count ∧ op = .programHalfWord i (~~~wordAt buf (2 * i)) := by
  induction count with
  | zero =>
    intro slot h
    exact absurd h List.not_mem_nil
  | succ count ih =>
    intro slot h
    rw [programOps, List.mem_append] at h
    rcases h with h | h
    · split at h
      · exact ⟨slot, le_rfl, by omega, List.mem_singleton.mp h⟩
      · exact absurd h List.not_mem_nil
    · obtain ⟨i, hle, hlt, rfl⟩ := ih (slot + 1) h
      exact ⟨i, by omega, by omega, rfl⟩

theorem runAll_of_programs {ops : List FlashOp} {i : Nat} :
    ∀ flash, (∀ op ∈ ops, ∃ slot data, op = .programHalfWord slot data ∧ slot ≠ i) →
      runAll (FlashOp.run f) flash ops i = flash i := by
  induction ops with
  | nil =>
    intro flash _
    rfl
  | cons op ops ih =>
    intro flash h
    obtain ⟨slot, data, rfl, hne⟩ := h op List.mem_cons_self
    refine (ih _ fun op' hop => h op' (List.mem_cons_of_mem _ hop)).trans ?_
    exact Function.update_of_ne hne.symm _ _

theorem runAll_programOps (buf : Mem UInt8) (count : Nat) :
    ∀ slot flash i, slot ≤ i → i < slot + count → flash i = FEE_EMPTY_WORD →
      runAll (FlashOp.run f) flash (programOps buf slot count) i = ~~~wordAt buf (2 * i) := by
  induction count with
  | zero =>
    intro slot flash i hle hlt
    omega
  | succ count ih =>
    intro slot flash i hle hlt hempty
    rw [programOps, runAll_append]
    by_cases hi : i = slot
    · subst hi
      rw [runAll_of_programs _ fun op hop => ?_]
      · split
        · exact Function.update_self _ _ _
        · rename_i hzero
          rw [ne_eq, not_not] at hzero
          rw [hzero]
          exact hempty
      · obtain ⟨j, hj, -, rfl⟩ := mem_programOps count _ hop
        exact ⟨j, _, rfl, by omega⟩
    · refine ih (slot + 1) _ i (by omega) (by omega) ?_
      split
      · exact (Function.update_of_ne hi _ _).trans hempty
      · exact hempty

theorem runAll_appendOps (ws : List UInt16) :
    ∀ slot flash, runAll (FlashOp.run f) flash (appendOps slot ws) = flash.writeBlock slot ws := by
  induction ws with
  | nil =>
    intro slot flash
    rfl
  | cons w ws ih =>
    intro slot flash
    exact ih (slot + 1) (Function.update flash slot w)

theorem allowed_eraseOps (count : Nat) :
    ∀ page flash, page + count ≤ f.pageCount →
      Allowed (FlashOp.run f) (FlashOp.Legal f) flash (eraseOps page count) := by
  induction count with
  | zero =>
    intro page flash _
    trivial
  | succ count ih =>
    intro page flash h
    refine ⟨?_, ih (page + 1) _ (by omega)⟩
    show page < f.pageCount
    omega

theorem allowed_programOps (buf : Mem UInt8) (count : Nat) :
    ∀ slot flash, slot + count ≤ f.logLast → (∀ i, slot ≤ i → i < slot + count → flash i = FEE_EMPTY_WORD) →
      Allowed (FlashOp.run f) (FlashOp.Legal f) flash (programOps buf slot count) := by
  induction count with
  | zero =>
    intro slot flash _ _
    trivial
  | succ count ih =>
    intro slot flash hle h
    rw [programOps]
    split
    · refine ⟨⟨by omega, h slot le_rfl (by omega)⟩, ih (slot + 1) _ (by omega) fun i hi hlt => ?_⟩
      exact (Function.update_of_ne (by omega) _ _).trans (h i (by omega) (by omega))
    · exact ih (slot + 1) _ (by omega) fun i hi hlt => h i (by omega) (by omega)

theorem allowed_appendOps (ws : List UInt16) :
    ∀ slot flash, slot + ws.length ≤ f.logLast → (∀ i, slot ≤ i → i < f.logLast → flash i = FEE_EMPTY_WORD) →
      Allowed (FlashOp.run f) (FlashOp.Legal f) flash (appendOps slot ws) := by
  induction ws with
  | nil =>
    intro slot flash _ _
    trivial
  | cons w ws ih =>
    intro slot flash hle h
    rw [List.length_cons] at hle
    refine ⟨⟨by omega, h slot le_rfl (by omega)⟩, ih (slot + 1) _ (by omega) fun i hi hlt => ?_⟩
    exact (Function.update_of_ne (by omega) _ _).trans (h i (by omega) hlt)

end Effects

section Images

variable {f : Fee}

theorem image_nil {flash : Mem UInt16} (h : ∀ i, f.logBase ≤ i → i < f.logLast → flash i = FEE_EMPTY_WORD) :
    Image f flash [] :=
  ⟨fun _ he => absurd he List.not_mem_nil, fun _ he => absurd he List.not_mem_nil, f.logBase_le, rfl, h⟩

theorem Image.update {flash : Mem UInt16} {es : List Entry} (h : Image f flash es) {slot : Nat}
    (hslot : slot < f.logBase) (hempty : flash slot = FEE_EMPTY_WORD) (data : UInt16) :
    Image f (Function.update flash slot data) es := by
  refine ⟨h.valid, fun e he => ?_, h.fits, ?_, fun i hi hlt => ?_⟩
  · have hne : e.slot ≠ slot := by
      intro heq
      exact h.programmed e he (heq ▸ hempty)
    rw [Function.update_of_ne hne]
    exact h.programmed e he
  · rw [← h.log, h.log]
    refine (Mem.readBlock_congr fun i _ => ?_).trans h.log
    exact Function.update_of_ne (by omega) _ _
  · rw [Function.update_of_ne (by omega)]
    exact h.erased i hi hlt

theorem Image.append {flash : Mem UInt16} {es : List Entry} (h : Image f flash es) {e : Entry} (he : e.Valid f)
    (hprog : flash e.slot ≠ FEE_EMPTY_WORD)
    (hfits : f.logBase + (encodeLog es).length + e.encode.length ≤ f.logLast) :
    Image f (flash.writeBlock (f.logBase + (encodeLog es).length) e.encode) (es ++ [e]) := by
  have hlen : (encodeLog (es ++ [e])).length = (encodeLog es).length + e.encode.length := by
    rw [encodeLog_append, encodeLog_singleton, List.length_append]
  refine ⟨fun e' he' => ?_, fun e' he' => ?_, by omega, ?_, fun i hi hlt => ?_⟩
  · rcases List.mem_append.mp he' with he' | he'
    · exact h.valid e' he'
    · rw [List.mem_singleton.mp he']
      exact he
  · have hvalid : e'.Valid f ∧ flash e'.slot ≠ FEE_EMPTY_WORD := by
      rcases List.mem_append.mp he' with he' | he'
      · exact ⟨h.valid e' he', h.programmed e' he'⟩
      · rw [List.mem_singleton.mp he']
        exact ⟨he, hprog⟩
    rw [Mem.writeBlock_of_lt _ _ _ (by have := hvalid.1.slot_lt; omega)]
    exact hvalid.2
  · rw [hlen, Mem.readBlock_append, Mem.readBlock_writeBlock, Mem.readBlock_writeBlock_of_disjoint (.inl le_rfl),
      h.log, encodeLog_append, encodeLog_singleton]
  · rw [Mem.writeBlock_of_ge (by omega)]
    exact h.erased i (by omega) hlt

theorem contents_writeBlock {flash : Mem UInt16} {es : List Entry} {slot : Nat} {ws : List UInt16}
    (h : f.logBase ≤ slot) : contents f (flash.writeBlock slot ws) es = contents f flash es := by
  funext a
  refine applyLog_congr es ?_
  have := f.two_mul_logBase
  by_cases ha : a < f.densityBytes
  · exact loadCompacted_congr (Mem.writeBlock_of_lt _ _ _ (by omega))
  · rw [loadCompacted, loadCompacted, if_neg ha, if_neg ha]

end Images

end Legacy
end VialQmk
