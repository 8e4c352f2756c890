import VialQmk.Legacy.Writes

/-!
# Legacy.Refines

The emulated EEPROM against an array of bytes.

* `Write.completes`: a write of the driver is the write of the array, and the flash keeps up with it.
* `ZeroesFullLog`: the one write that this does not hold for. Both bytes of a word below `FEE_BYTE_RANGE` become 0 while
  the log is full: the first entry compacts and leaves the half-word erased, the second is an entry about it.
* `emulated_eeprom_refines`: runs of calls.
-/

namespace VialQmk
namespace Legacy

open Lib

def Write.apply (buf : Mem UInt8) : Write → Mem UInt8
  | .byte address value => Function.update buf address value
  | .word address value => setWord buf address value

def Write.InRange (f : Fee) : Write → Prop
  | .byte address _ => address < f.densityBytes
  | .word address _ => address + 1 < f.densityBytes

def ZeroesFullLog (f : Fee) (s : Eeprom) : Write → Prop
  | .byte _ _ => False
  | .word address value =>
    address % 2 = 0 ∧ address < FEE_BYTE_RANGE ∧ value = 0 ∧ s.dataBuf address ≠ 0 ∧ s.dataBuf (address + 1) ≠ 0 ∧
      f.logBase < f.logLast ∧ f.logLast ≤ s.emptySlot

section Writes

variable {f : Fee} {s : Eeprom} {es : List Entry}

theorem pageCount_pos {a : Nat} (h : a < f.densityBytes) : 0 < f.pageCount := by
  have hfits := f.fits
  refine Nat.pos_of_ne_zero fun hzero => ?_
  rw [hzero, Nat.zero_mul] at hfits
  omega

theorem Inv.outside (h : Inv f s es) : ∀ a, f.densityBytes ≤ a → s.dataBuf a = 0 := by
  intro a ha
  rw [h.dataBuf]
  exact contents_of_ge h.image.valid ha

variable {address : Nat}

theorem setWord_of_ge {buf : Mem UInt8} (h : ∀ a, f.densityBytes ≤ a → buf a = 0) (ha : address + 1 < f.densityBytes)
    (value : UInt16) : ∀ a, f.densityBytes ≤ a → setWord buf address value a = 0 := by
  intro a hge
  rw [setWord, Function.update_of_ne (by omega), Function.update_of_ne (by omega)]
  exact h a hge

theorem Completes.inv {s' : Eeprom} {es' : List Entry} {ops : List FlashOp} (h : Completes f s es ops s' es')
    (hcontents : contents f s'.flash es' = s'.dataBuf) : Inv f s' es' := ⟨h.image, hcontents.symm, h.emptySlot⟩

theorem Completes.of_dataBuf {s' : Eeprom} {es' : List Entry} {ops : List FlashOp} {buf : Mem UInt8}
    (h : Completes f { s with dataBuf := buf } es ops s' es') : Completes f s es ops s' es' :=
  ⟨⟨h.performs.flash, h.performs.trace⟩, h.legal, h.whole, h.cuts, h.image, h.emptySlot⟩

theorem oneEntry_completes (h : Image f s.flash es) (hslot : s.emptySlot = f.logBase + (encodeLog es).length)
    (hrange : address < FEE_BYTE_RANGE) (ha : address < f.densityBytes)
    (hprog : s.flash (address / 2) ≠ FEE_EMPTY_WORD) (hout : ∀ a, f.densityBytes ≤ a → s.dataBuf a = 0)
    (hupdate : Function.update (contents f s.flash es) address (s.dataBuf address) = s.dataBuf) :
    ∃ ops es', Completes f s es ops (writeLogByteEntry f address s) es' ∧
      (writeLogByteEntry f address s).dataBuf = s.dataBuf ∧
      contents f (writeLogByteEntry f address s).flash es' = s.dataBuf := by
  obtain ⟨ops, es', hc, hd, hcases⟩ :=
    byteEntry_completes h hslot hrange ha (fun _ => hprog) hout (pageCount_pos ha)
  refine ⟨ops, es', hc, hd, ?_⟩
  rcases hcases with ⟨-, -, hcontents⟩ | ⟨-, -, -, hcontents⟩
  · exact hcontents.trans hupdate
  · exact hcontents

theorem writeDataByte_completes (h : Inv f s es) (ha : address < f.densityBytes) (dataByte : UInt8) :
    ∃ ops es', Completes f s es ops (writeDataByte f address dataByte s) es' ∧
      Inv f (writeDataByte f address dataByte s) es' ∧
      (writeDataByte f address dataByte s).dataBuf = Function.update s.dataBuf address dataByte := by
  have hpages := pageCount_pos ha
  rw [writeDataByte, if_neg (by omega)]
  by_cases hsame : s.dataBuf address = dataByte
  · rw [if_pos hsame]
    refine ⟨[], es, Completes.refl h.image h.emptySlot, h, ?_⟩
    rw [← hsame, Function.update_eq_self]
  · rw [if_neg hsame]
    generalize hu : ({ s with dataBuf := Function.update s.dataBuf address dataByte } : Eeprom) = u
    have hflash : u.flash = s.flash := by rw [← hu]
    have hbuf : u.dataBuf = Function.update s.dataBuf address dataByte := by rw [← hu]
    have hslot : u.emptySlot = f.logBase + (encodeLog es).length := by rw [← hu]; exact h.emptySlot
    have himage : Image f u.flash es := by rw [hflash]; exact h.image
    have hout : ∀ a, f.densityBytes ≤ a → u.dataBuf a = 0 := by
      intro a hge
      rw [hbuf, Function.update_of_ne (by omega)]
      exact h.outside a hge
    have hagree : ∀ a, a ≠ address → contents f u.flash es a = u.dataBuf a := by
      intro a hne
      rw [hflash, hbuf, Function.update_of_ne hne, h.dataBuf]
    have hagree' : ∀ a, a / 2 ≠ address / 2 → contents f u.flash es a = u.dataBuf a := by
      intro a hne
      exact hagree a (by rintro rfl; exact hne rfl)
    have hfrom : ∀ {ops s' es'}, Completes f u es ops s' es' → Completes f s es ops s' es' := by
      intro ops s' es' hc
      rw [← hu] at hc
      exact hc.of_dataBuf
    by_cases hempty : u.flash (address / 2) = FEE_EMPTY_WORD
    · obtain ⟨ops, s', hdirect, hc, hcontents, hd⟩ := direct_completes himage hslot ha hagree' hempty
      rw [hdirect, logByte]
      exact ⟨ops, es, hfrom hc, hc.inv (hcontents.trans hd.symm), hd.trans hbuf⟩
    · rw [direct_programmed hempty, logByte]
      by_cases hrange : address < FEE_BYTE_RANGE
      · rw [if_pos hrange]
        obtain ⟨ops, es', hc, hd, hcontents⟩ :=
          oneEntry_completes himage hslot hrange ha hempty hout (Function.update_eq_iff.mpr ⟨rfl, hagree⟩)
        exact ⟨ops, es', hfrom hc, hc.inv (hcontents.trans hd.symm), hd.trans hbuf⟩
      · rw [if_neg hrange]
        have hhalf : address / 2 * 2 / 2 = address / 2 := by omega
        have hrange' : FEE_BYTE_RANGE ≤ address / 2 * 2 := by
          rw [FEE_BYTE_RANGE] at hrange ⊢
          omega
        obtain ⟨ops, es', hc, hd, hcontents⟩ :=
          wordEntry_completes himage hslot hrange' (by omega) (by omega) (by rwa [hhalf]) hout hpages (by rwa [hhalf])
        exact ⟨ops, es', hfrom hc, hc.inv (hcontents.trans hd.symm), hd.trans hbuf⟩

theorem highByte_wordAt (buf : Mem UInt8) (address : Nat) : highByte (wordAt buf address) = buf (address + 1) :=
  highByte_ofBytes _ _

theorem lowByte_wordAt (buf : Mem UInt8) (address : Nat) : lowByte (wordAt buf address) = buf address :=
  lowByte_ofBytes _ _

theorem update_update_oldOrNew (buf : Mem UInt8) (address : Nat) (lo hi : UInt8) :
    OldOrNew buf (Function.update (Function.update buf address lo) (address + 1) hi)
      (Function.update buf address lo) := by
  intro a
  by_cases h : a = address
  · right
    exact (Function.update_of_ne (by omega) _ _).symm
  · left
    exact Function.update_of_ne h _ _

theorem twoEntries_completes (h : Image f s.flash es) (hslot : s.emptySlot = f.logBase + (encodeLog es).length)
    (heven : address % 2 = 0) (hrange : address < FEE_BYTE_RANGE) (ha : address < f.densityBytes)
    (hprog : s.flash (address / 2) ≠ FEE_EMPTY_WORD) (hout : ∀ a, f.densityBytes ≤ a → s.dataBuf a = 0)
    {dataWord : UInt16} (hbuf : s.dataBuf = setWord (contents f s.flash es) address dataWord)
    (hok : dataWord = 0 → f.logBase < f.logLast → s.emptySlot < f.logLast) :
    ∃ ops es', Completes f s es ops (writeLogByteEntry f (address + 1) (writeLogByteEntry f address s)) es' ∧
      (writeLogByteEntry f (address + 1) (writeLogByteEntry f address s)).dataBuf = s.dataBuf ∧
      contents f (writeLogByteEntry f (address + 1) (writeLogByteEntry f address s)).flash es' = s.dataBuf := by
  have hpages := pageCount_pos ha
  have hdens := f.density_even
  have hrange' : address + 1 < FEE_BYTE_RANGE := by
    rw [FEE_BYTE_RANGE] at hrange ⊢
    omega
  have hhalf : (address + 1) / 2 = address / 2 := by omega
  have hlo : s.dataBuf address = lowByte dataWord := by
    rw [hbuf, setWord, Function.update_of_ne (by omega), Function.update_self]
  have hhi : s.dataBuf (address + 1) = highByte dataWord := by rw [hbuf, setWord, Function.update_self]
  have hword : wordAt s.dataBuf address = dataWord := by rw [wordAt, hlo, hhi, ofBytes_low_high]
  generalize hold : contents f s.flash es = old at hbuf
  obtain ⟨ops, es₁, hc, hd, hcases⟩ := byteEntry_completes h hslot hrange ha (fun _ => hprog) hout hpages
  rw [hold] at hcases
  generalize writeLogByteEntry f address s = u at hc hd hcases ⊢
  have hprog' : u.emptySlot < f.logLast → u.flash ((address + 1) / 2) ≠ FEE_EMPTY_WORD := by
    intro hlt
    rw [hhalf]
    rcases hcases with ⟨-, hflash, -⟩ | ⟨hfull, hbase, hflash, -⟩
    · rwa [hflash]
    · rw [hflash, show address / 2 * 2 = address by omega, hword]
      intro hzero
      have hzero' : dataWord = 0 := by
        rw [← UInt16.not_not (a := dataWord), hzero]
        decide
      have hfree := hok hzero' (by omega)
      omega
  obtain ⟨ops', es₂, hc', hd', hcases'⟩ := byteEntry_completes hc.image hc.emptySlot hrange' (by omega) hprog'
    (by rwa [hd]) hpages
  rw [hd, hhi] at hcases'
  have hset : Function.update (Function.update old address (lowByte dataWord)) (address + 1) (highByte dataWord) =
      s.dataBuf := hbuf.symm
  have hself : Function.update s.dataBuf (address + 1) (highByte dataWord) = s.dataBuf := by
    rw [← hhi, Function.update_eq_self]
  have hfinal : contents f (writeLogByteEntry f (address + 1) u).flash es₂ = s.dataBuf := by
    rcases hcases' with ⟨-, -, hcontents'⟩ | ⟨-, -, -, hcontents'⟩
    · rcases hcases with ⟨-, -, hcontents⟩ | ⟨-, -, -, hcontents⟩
      · rw [hcontents', hcontents, hlo, hset]
      · rw [hcontents', hcontents, hself]
    · exact hcontents'
  refine ⟨_, es₂, hc.trans hc' ?_, hd'.trans hd, hfinal⟩
  rw [hfinal, hold]
  rcases hcases with ⟨-, -, hcontents⟩ | ⟨-, -, -, hcontents⟩
  · rw [hcontents, hlo, ← hset]
    exact update_update_oldOrNew old address _ _
  · rw [hcontents]
    exact fun a => .inr rfl

theorem logChangedBytes_completes (h : Image f s.flash es) (hslot : s.emptySlot = f.logBase + (encodeLog es).length)
    (heven : address % 2 = 0) (hrange : address < FEE_BYTE_RANGE) (ha : address < f.densityBytes)
    (hprog : s.flash (address / 2) ≠ FEE_EMPTY_WORD) (hout : ∀ a, f.densityBytes ≤ a → s.dataBuf a = 0)
    {dataWord : UInt16} (hbuf : s.dataBuf = setWord (contents f s.flash es) address dataWord)
    (hok : dataWord = 0 → contents f s.flash es address ≠ 0 → contents f s.flash es (address + 1) ≠ 0 →
      f.logBase < f.logLast → s.emptySlot < f.logLast) : ∃ ops es', Completes f s es ops
        (logChangedBytes f address (wordAt (contents f s.flash es) address) dataWord s) es' ∧
      (logChangedBytes f address (wordAt (contents f s.flash es) address) dataWord s).dataBuf = s.dataBuf ∧
      contents f (logChangedBytes f address (wordAt (contents f s.flash es) address) dataWord s).flash es' =
        s.dataBuf := by
  have hdens := f.density_even
  have hrange' : address + 1 < FEE_BYTE_RANGE := by
    rw [FEE_BYTE_RANGE] at hrange ⊢
    omega
  have hhalf : (address + 1) / 2 = address / 2 := by omega
  have hlo : s.dataBuf address = lowByte dataWord := by
    rw [hbuf, setWord, Function.update_of_ne (by omega), Function.update_self]
  have hhi : s.dataBuf (address + 1) = highByte dataWord := by rw [hbuf, setWord, Function.update_self]
  rw [logChangedBytes, highByte_wordAt, lowByte_wordAt]
  by_cases hlow : contents f s.flash es address ≠ lowByte dataWord
  · rw [if_pos hlow]
    by_cases hhigh : contents f s.flash es (address + 1) ≠ highByte dataWord
    · rw [if_pos hhigh]
      refine twoEntries_completes h hslot heven hrange ha hprog hout hbuf fun hzero => ?_
      subst hzero
      exact hok rfl hlow hhigh
    · rw [if_neg hhigh]
      rw [ne_eq, not_not] at hhigh
      refine oneEntry_completes h hslot hrange ha hprog hout ?_
      rw [hlo]
      refine Eq.trans (Function.update_eq_self_iff.mpr ?_).symm hbuf.symm
      rw [Function.update_of_ne (by omega), hhigh]
  · rw [if_neg hlow]
    rw [ne_eq, not_not] at hlow
    by_cases hhigh : contents f s.flash es (address + 1) ≠ highByte dataWord
    · rw [if_pos hhigh]
      refine oneEntry_completes h hslot hrange' (by omega) (by rwa [hhalf]) hout ?_
      rw [hhi]
      conv_rhs => rw [hbuf, setWord, ← hlow, Function.update_eq_self]
    · rw [if_neg hhigh]
      rw [ne_eq, not_not] at hhigh
      refine ⟨[], es, Completes.refl h hslot, rfl, ?_⟩
      show contents f s.flash es = s.dataBuf
      rw [hbuf, setWord, ← hlow, ← hhigh, Function.update_eq_self, Function.update_eq_self]

theorem writeDataWord_completes (h : Inv f s es) (ha : address + 1 < f.densityBytes) (dataWord : UInt16)
    (hok : ¬ ZeroesFullLog f s (.word address dataWord)) :
    ∃ ops es', Completes f s es ops (writeDataWord f address dataWord s) es' ∧
      Inv f (writeDataWord f address dataWord s) es' ∧
      (writeDataWord f address dataWord s).dataBuf = setWord s.dataBuf address dataWord := by
  have ha' : address < f.densityBytes := by omega
  have hpages := pageCount_pos ha
  rw [writeDataWord, if_neg (by omega)]
  by_cases hodd : address % 2 = 1
  · rw [if_pos hodd]
    obtain ⟨ops, es₁, hc, hinv, hd⟩ := writeDataByte_completes h ha' (lowByte dataWord)
    obtain ⟨ops', es₂, hc', hinv', hd'⟩ := writeDataByte_completes hinv ha (highByte dataWord)
    rw [hd] at hd'
    refine ⟨_, es₂, hc.trans hc' ?_, hinv', hd'⟩
    rw [← h.dataBuf, ← hinv.dataBuf, ← hinv'.dataBuf, hd', hd]
    exact update_update_oldOrNew s.dataBuf address _ _
  · rw [if_neg hodd]
    by_cases hsame : wordAt s.dataBuf address = dataWord
    · rw [if_pos hsame]
      refine ⟨[], es, Completes.refl h.image h.emptySlot, h, ?_⟩
      rw [← hsame]
      exact (setWord_of_agree (by omega) fun _ _ => rfl).symm
    · rw [if_neg hsame]
      generalize hu : ({ s with dataBuf := setWord s.dataBuf address dataWord } : Eeprom) = u
      have hflash : u.flash = s.flash := by rw [← hu]
      have hbuf : u.dataBuf = setWord s.dataBuf address dataWord := by rw [← hu]
      have hslot' : u.emptySlot = s.emptySlot := by rw [← hu]
      have hslot : u.emptySlot = f.logBase + (encodeLog es).length := hslot'.trans h.emptySlot
      have himage : Image f u.flash es := by rw [hflash]; exact h.image
      have hcontents : contents f u.flash es = s.dataBuf := by rw [hflash, h.dataBuf]
      have hout : ∀ a, f.densityBytes ≤ a → u.dataBuf a = 0 := by
        rw [hbuf]
        exact setWord_of_ge h.outside ha dataWord
      have hagree : ∀ a, a / 2 ≠ address / 2 → contents f u.flash es a = u.dataBuf a := by
        intro a hne
        rw [hcontents, hbuf, setWord, Function.update_of_ne (by omega), Function.update_of_ne (by omega)]
      have hfrom : ∀ {ops s' es'}, Completes f u es ops s' es' → Completes f s es ops s' es' := by
        intro ops s' es' hc
        rw [← hu] at hc
        exact hc.of_dataBuf
      by_cases hempty : u.flash (address / 2) = FEE_EMPTY_WORD
      · obtain ⟨ops, s', hdirect, hc, hcontents', hd⟩ := direct_completes himage hslot ha' hagree hempty
        rw [hdirect, logWord]
        exact ⟨ops, es, hfrom hc, hc.inv (hcontents'.trans hd.symm), hd.trans hbuf⟩
      · rw [direct_programmed hempty, logWord]
        by_cases hrange : address < FEE_BYTE_RANGE
        · rw [if_pos hrange, ← hcontents]
          obtain ⟨ops, es', hc, hd, hc'⟩ := logChangedBytes_completes himage hslot (by omega) hrange ha' hempty hout
            (by rw [hcontents]; exact hbuf) fun hzero hlo hhi hlog => by
              rw [hcontents] at hlo hhi
              rw [hslot']
              exact Nat.lt_of_not_le fun hfull => hok ⟨by omega, hrange, hzero, hlo, hhi, hlog, hfull⟩
          exact ⟨ops, es', hfrom hc, hc.inv (hc'.trans hd.symm), hd.trans (by rw [hbuf, hcontents])⟩
        · rw [if_neg hrange]
          obtain ⟨ops, es', hc, hd, hc'⟩ :=
            wordEntry_completes himage hslot (by omega) (by omega) ha' hempty hout hpages hagree
          exact ⟨ops, es', hfrom hc, hc.inv (hc'.trans hd.symm), hd.trans hbuf⟩

theorem Write.completes (h : Inv f s es) (w : Write) (hrange : w.InRange f) (hok : ¬ ZeroesFullLog f s w) :
    ∃ ops es', Completes f s es ops (w.run f s) es' ∧ Inv f (w.run f s) es' ∧
      (w.run f s).dataBuf = w.apply s.dataBuf := by
  cases w with
  | byte address value => exact writeDataByte_completes h hrange value
  | word address value => exact writeDataWord_completes h hrange value hok

end Writes

section Runs

variable (f : Fee)

inductive Call
  | writeDataByte (address : Nat) (value : UInt8)
  | writeDataWord (address : Nat) (value : UInt16)
  | writeBlock (address : Nat) (values : List UInt8)
  | init
  deriving DecidableEq, Repr

def Call.run (s : Eeprom) : Call → Eeprom
  | .writeDataByte address value => Legacy.writeDataByte f address value s
  | .writeDataWord address value => Legacy.writeDataWord f address value s
  | .writeBlock address values => eepromWriteBlock f address values s
  | .init => eepromInit f s

def Call.apply (array : Mem UInt8) : Call → Mem UInt8
  | .writeDataByte address value => Function.update array address value
  | .writeDataWord address value => setWord array address value
  | .writeBlock address values => array.writeBlock address values
  | .init => array

def Call.InRange : Call → Prop
  | .writeDataByte address _ => address < f.densityBytes
  | .writeDataWord address _ => address + 1 < f.densityBytes
  | .writeBlock address values => address + values.length ≤ f.densityBytes
  | .init => True

instance : DecidablePred (Call.InRange f) := fun c => match c with
  | .writeDataByte _ _ => inferInstanceAs (Decidable (_ < _))
  | .writeDataWord _ _ => inferInstanceAs (Decidable (_ < _))
  | .writeBlock _ _ => inferInstanceAs (Decidable (_ ≤ _))
  | .init => isTrue trivial

def Call.writes : Call → List Write
  | .writeDataByte address value => [.byte address value]
  | .writeDataWord address value => [.word address value]
  | .writeBlock address values => blockWrites address values
  | .init => []

def WritesAvoid : Eeprom → List Write → Prop
  | _, [] => True
  | s, w :: ws => ¬ ZeroesFullLog f s w ∧ WritesAvoid (w.run f s) ws

def CallsAvoid : Eeprom → List Call → Prop
  | _, [] => True
  | s, c :: cs => WritesAvoid f s c.writes ∧ CallsAvoid (c.run f s) cs

/-- Reads give the bytes of the array, and `EEPROM_Init` finds them in the flash. -/
structure Refines (s : Eeprom) (array : Mem UInt8) : Prop where
  read_byte : ∀ a, a < f.densityBytes → readDataByte f a s = array a
  read_word : ∀ a, a + 1 < f.densityBytes → readDataWord f a s = ofBytes (array a) (array (a + 1))
  read_block : ∀ a len, a + len ≤ f.densityBytes → eepromReadBlock f a len s = array.readBlock a len
  rebuilt : ∀ a, a < f.densityBytes → (eepromInit f s).dataBuf a = s.dataBuf a

end Runs

section Runs

variable {f : Fee} {s : Eeprom} {es : List Entry}

theorem Inv.init_eq (h : Inv f s es) : eepromInit f s = s := by
  rw [h.image.init_eq, ← h.dataBuf, ← h.emptySlot]

theorem readWords_eq {array : Mem UInt8} (h : s.dataBuf = array) (len : Nat) (a : Nat) :
    a + len ≤ f.densityBytes → readWords f s a len = array.readBlock a len := by
  subst h
  fun_induction readWords f s a len with
  | case1 a =>
    intro _
    rfl
  | case2 a =>
    intro hle
    rw [readDataByte, if_pos (by omega)]
    rfl
  | case3 a len ih =>
    intro hle
    rw [ih (by omega), readDataWord, if_pos (by omega), lowByte_wordAt, highByte_wordAt]
    rfl

theorem Inv.refines (h : Inv f s es) : Refines f s s.dataBuf := by
  refine ⟨fun a ha => ?_, fun a ha => ?_, fun a len hle => ?_, fun a _ => ?_⟩
  · rw [readDataByte, if_pos ha]
  · rw [readDataWord, if_pos (by omega)]
    rfl
  · rw [eepromReadBlock]
    split
    · rename_i hodd
      obtain ⟨n, rfl⟩ := Nat.exists_eq_succ_of_ne_zero hodd.1
      rw [readWords_eq rfl _ _ (by omega), readDataByte, if_pos (by omega)]
      rfl
    · exact readWords_eq rfl _ _ hle
  · rw [h.init_eq]

theorem writeWords_apply (values : List UInt8) (address : Nat) :
    ∀ buf, (writeWords address values).foldl Write.apply buf = buf.writeBlock address values := by
  fun_induction writeWords address values with
  | case1 address =>
    intro buf
    rfl
  | case2 address value =>
    intro buf
    rfl
  | case3 address lo hi values ih =>
    intro buf
    rw [List.foldl_cons, ih, Write.apply, setWord, lowByte_ofBytes, highByte_ofBytes]
    rfl

theorem writeWords_inRange (values : List UInt8) (address : Nat) :
    address + values.length ≤ f.densityBytes → ∀ w ∈ writeWords address values, w.InRange f := by
  fun_induction writeWords address values with
  | case1 address =>
    intro _ w hw
    exact absurd hw List.not_mem_nil
  | case2 address value =>
    intro h w hw
    rw [List.mem_singleton.mp hw]
    exact h
  | case3 address lo hi values ih =>
    intro h w hw
    rw [List.length_cons, List.length_cons] at h
    rcases List.mem_cons.mp hw with rfl | hw
    · show address + 1 < f.densityBytes
      omega
    · exact ih (by omega) w hw

theorem blockWrites_apply (address : Nat) (values : List UInt8) (buf : Mem UInt8) :
    (blockWrites address values).foldl Write.apply buf = buf.writeBlock address values := by
  cases values with
  | nil => rfl
  | cons value values =>
    rw [blockWrites]
    split
    · exact writeWords_apply values (address + 1) _
    · exact writeWords_apply _ address buf

theorem blockWrites_inRange {address : Nat} {values : List UInt8} (h : address + values.length ≤ f.densityBytes) :
    ∀ w ∈ blockWrites address values, w.InRange f := by
  cases values with
  | nil =>
    intro w hw
    exact absurd hw List.not_mem_nil
  | cons value values =>
    rw [List.length_cons] at h
    intro w hw
    rw [blockWrites] at hw
    split at hw
    · rcases List.mem_cons.mp hw with rfl | hw
      · show address < f.densityBytes
        omega
      · exact writeWords_inRange values (address + 1) (by omega) w hw
    · exact writeWords_inRange _ address (by rw [List.length_cons]; omega) w hw

/-- What a run keeps: the agreement of the driver with its flash, and the lawful history of the flash. -/
structure Lawful (f : Fee) (flash₀ : Mem UInt16) (s : Eeprom) : Prop where
  inv : ∃ es, Inv f s es
  flash : s.flash = runAll (FlashOp.run f) flash₀ s.trace
  legal : Allowed (FlashOp.run f) (FlashOp.Legal f) flash₀ s.trace

variable {flash₀ : Mem UInt16}

theorem Lawful.write (h : Lawful f flash₀ s) {w : Write} (hrange : w.InRange f) (hok : ¬ ZeroesFullLog f s w) :
    Lawful f flash₀ (w.run f s) ∧ (w.run f s).dataBuf = w.apply s.dataBuf := by
  obtain ⟨es, hinv⟩ := h.inv
  obtain ⟨ops, es', hc, hinv', hd⟩ := w.completes hinv hrange hok
  have hlegal := hc.legal
  rw [h.flash] at hlegal
  refine ⟨⟨⟨es', hinv'⟩, ?_, ?_⟩, hd⟩
  · rw [hc.performs.flash, hc.performs.trace, runAll_append, ← h.flash]
  · rw [hc.performs.trace]
    exact (allowed_append _ _ _).mpr ⟨h.legal, hlegal⟩

theorem Lawful.writes (ws : List Write) : ∀ {s}, Lawful f flash₀ s → (∀ w ∈ ws, w.InRange f) → WritesAvoid f s ws →
      Lawful f flash₀ (ws.foldl (Write.run f) s) ∧
        (ws.foldl (Write.run f) s).dataBuf = ws.foldl Write.apply s.dataBuf := by
  induction ws with
  | nil =>
    intro s h _ _
    exact ⟨h, rfl⟩
  | cons w ws ih =>
    intro s h hrange hok
    obtain ⟨hw, hd⟩ := h.write (hrange w List.mem_cons_self) hok.1
    rw [List.foldl_cons, List.foldl_cons, ← hd]
    exact ih hw (fun w' hw' => hrange w' (List.mem_cons_of_mem _ hw')) hok.2

theorem Lawful.call (h : Lawful f flash₀ s) {c : Call} (hrange : c.InRange f) (hok : WritesAvoid f s c.writes) :
    Lawful f flash₀ (c.run f s) ∧ (c.run f s).dataBuf = c.apply s.dataBuf := by
  cases c with
  | writeDataByte address value => exact h.write (w := .byte address value) hrange hok.1
  | writeDataWord address value => exact h.write (w := .word address value) hrange hok.1
  | writeBlock address values =>
    obtain ⟨hl, hd⟩ := Lawful.writes _ h (blockWrites_inRange hrange) hok
    exact ⟨hl, hd.trans (blockWrites_apply address values _)⟩
  | init =>
    obtain ⟨es, hinv⟩ := h.inv
    rw [Call.run, hinv.init_eq]
    exact ⟨h, rfl⟩

theorem Lawful.calls (cs : List Call) : ∀ {s}, Lawful f flash₀ s → (∀ c ∈ cs, c.InRange f) → CallsAvoid f s cs →
      Lawful f flash₀ (cs.foldl (Call.run f) s) ∧
        (cs.foldl (Call.run f) s).dataBuf = cs.foldl Call.apply s.dataBuf := by
  induction cs with
  | nil =>
    intro s h _ _
    exact ⟨h, rfl⟩
  | cons c cs ih =>
    intro s h hrange hok
    obtain ⟨hc, hd⟩ := h.call (hrange c List.mem_cons_self) hok.1
    rw [List.foldl_cons, List.foldl_cons, ← hd]
    exact ih hc (fun c' hc' => hrange c' (List.mem_cons_of_mem _ hc')) hok.2

theorem erase_inv (s : Eeprom) : Inv f (eepromErase f s) [] ∧ (eepromErase f s).dataBuf = fun _ => 0 := by
  have hflash : (eepromClear f s).flash = runAll (FlashOp.run f) s.flash (eraseOps 0 f.pageCount) :=
    (performs_erasePages f.pageCount 0 s).1.flash
  have hempty : ∀ i, i < f.logLast → (eepromClear f s).flash i = FEE_EMPTY_WORD := by
    intro i hi
    rw [hflash, runAll_eraseOps_all _ hi]
  have himage : Image f (eepromClear f s).flash [] := image_nil fun i _ hlt => hempty i hlt
  have hzero : contents f (eepromClear f s).flash [] = fun _ => 0 := by
    have hbase := f.two_mul_logBase
    have hle := f.logBase_le
    funext a
    by_cases ha : a < f.densityBytes
    · refine @loadCompacted_complement f _ (fun _ => 0) a ha ?_
      rw [hempty _ (by omega)]
      show FEE_EMPTY_WORD = ~~~ofBytes 0 0
      decide
    · exact if_neg ha
  rw [eepromErase, himage.init_eq, hzero]
  exact ⟨⟨himage, hzero.symm, rfl⟩, rfl⟩

theorem erase_lawful (s : Eeprom) (htrace : s.trace = []) : Lawful f s.flash (eepromErase f s) := by
  obtain ⟨hp, -⟩ := performs_erasePages (f := f) f.pageCount 0 s
  have htr : (eepromErase f s).trace = eraseOps 0 f.pageCount := by
    refine hp.trace.trans ?_
    rw [htrace, List.nil_append]
  refine ⟨⟨[], (erase_inv s).1⟩, ?_, ?_⟩
  · rw [htr]
    exact hp.flash
  · rw [htr]
    exact allowed_eraseOps _ _ _ (by omega)

/-- After `EEPROM_Erase`, every run of calls that does not zero a word on a full log is a run on an array of bytes, and
programs erased half-words only. -/
theorem emulated_eeprom_refines (f : Fee) (s : Eeprom) (cs : List Call) (htrace : s.trace = [])
    (hrange : ∀ c ∈ cs, c.InRange f) (hok : CallsAvoid f (eepromErase f s) cs) :
    Refines f (cs.foldl (Call.run f) (eepromErase f s)) (cs.foldl Call.apply fun _ => 0) ∧
      Allowed (FlashOp.run f) (FlashOp.Legal f) s.flash (cs.foldl (Call.run f) (eepromErase f s)).trace := by
  obtain ⟨hl', hd⟩ := Lawful.calls cs (erase_lawful s htrace) hrange hok
  obtain ⟨es, hinv⟩ := hl'.inv
  rw [(erase_inv s).2] at hd
  exact ⟨hd ▸ hinv.refines, hl'.legal⟩

end Runs

def twoWords : Fee where
  pageSize := 1024
  pageCount := 1
  densityBytes := 4
  writeLogBytes := 2
  pageSize_even := by decide
  density_even := by decide
  writeLog_even := by decide
  density_le := by decide
  fits := by decide

def unused : Eeprom := ⟨fun _ => 0x5555, fun _ => 0, 0, []⟩

def someCalls : List Call :=
  [.writeDataWord 0 0x0102, .writeBlock 1 [7, 8, 9], .writeDataByte 0 4, .init, .writeDataByte 0 5]

theorem twoWords_refines :
    Refines twoWords (someCalls.foldl (Call.run twoWords) (eepromErase twoWords unused))
      (someCalls.foldl Call.apply fun _ => 0) := by
  refine (emulated_eeprom_refines twoWords unused someCalls rfl (by decide) ⟨⟨?_, trivial⟩, ?_⟩).1
  · exact fun h => absurd h.2.2.1 (by decide)
  · refine ⟨⟨id, ?_, trivial⟩, ⟨id, trivial⟩, trivial, ⟨id, trivial⟩, trivial⟩
    exact fun h => absurd h.2.2.1 (by decide)

/-- A word of two set bytes is set to 0 on a full log; the byte written behind it is lost to `EEPROM_Init`. -/
theorem byte_behind_zero_lost :
    ¬ ∀ (f : Fee) (s : Eeprom) (cs : List Call), s.trace = [] → (∀ c ∈ cs, c.InRange f) →
      Refines f (cs.foldl (Call.run f) (eepromErase f s)) (cs.foldl Call.apply fun _ => 0) := by
  intro h
  have hlost := (h twoWords unused [.writeDataWord 0 0x0101, .writeDataByte 0 2, .writeDataWord 0 0, .writeDataByte 1 5]
    rfl (by decide)).rebuilt 1 (by decide)
  exact absurd hlost (by decide +kernel)

end Legacy
end VialQmk
