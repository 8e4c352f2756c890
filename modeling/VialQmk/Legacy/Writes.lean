import VialQmk.Legacy.Image

/-!
# Legacy.Writes

What a write does, whichever of its ways it takes: to the flash, to the contents, and wherever power is lost.

* `Inv`: the driver agrees with its flash.
* `Completes`: a write from one agreement to another. Every program is of an erased half-word, and wherever the write is
  cut off between the erases of a compaction or not at all, an image is left.
* `ZeroesFullLog`: the one write that breaks the agreement.
-/

namespace VialQmk
namespace Legacy

open Lib

/-- `DataBuf` and `empty_slot` are what `EEPROM_Init` makes of the flash. -/
structure Inv (f : Fee) (s : Eeprom) (es : List Entry) : Prop where
  image : Image f s.flash es
  dataBuf : s.dataBuf = contents f s.flash es
  emptySlot : s.emptySlot = f.logBase + (encodeLog es).length

def FlashOp.IsErase : FlashOp → Prop
  | .erasePage _ => True
  | .programHalfWord _ _ => False

instance : DecidablePred FlashOp.IsErase := fun op => match op with
  | .erasePage _ => isTrue trivial
  | .programHalfWord _ _ => isFalse id

def erases (ops : List FlashOp) : Nat := ops.countP (·.IsErase)

def PartlyErased (f : Fee) (done : List FlashOp) : Prop := ¬ f.pageCount ∣ erases done

/-- What a cut leaves: an image with the contents as they may be. -/
def Leaves (f : Fee) (C : Mem UInt8 → Prop) (done : List FlashOp) (flash : Mem UInt16) : Prop :=
  PartlyErased f done ∨ ∃ es, Image f flash es ∧ C (contents f flash es)

def OldOrNew (old new buf : Mem UInt8) : Prop := ∀ a, buf a = old a ∨ buf a = new a

structure Completes (f : Fee) (s : Eeprom) (es : List Entry) (ops : List FlashOp) (s' : Eeprom) (es' : List Entry) :
    Prop where
  performs : Performs f s ops s'
  legal : Allowed (FlashOp.run f) (FlashOp.Legal f) s.flash ops
  whole : f.pageCount ∣ erases ops
  cuts : EveryCut (FlashOp.run f)
    (Leaves f fun buf => erases ops = 0 → OldOrNew (contents f s.flash es) (contents f s'.flash es') buf) s.flash ops
  image : Image f s'.flash es'
  emptySlot : s'.emptySlot = f.logBase + (encodeLog es').length

section Compact

variable {f : Fee}

theorem erases_append (ops ops' : List FlashOp) : erases (ops ++ ops') = erases ops + erases ops' := List.countP_append

theorem erases_eraseOps (count : Nat) : ∀ page, erases (eraseOps page count) = count := by
  induction count with
  | zero =>
    intro page
    rfl
  | succ count ih =>
    intro page
    rw [eraseOps, ← List.singleton_append, erases_append, ih, Nat.add_comm]
    rfl

theorem erases_of_programs {ops : List FlashOp} (h : ∀ op ∈ ops, ∃ slot data, op = .programHalfWord slot data) :
    erases ops = 0 := by
  refine List.countP_eq_zero.mpr fun op hop => ?_
  obtain ⟨slot, data, rfl⟩ := h op hop
  exact fun hd => of_decide_eq_true hd

theorem erases_programOps (buf : Mem UInt8) (slot count : Nat) : erases (programOps buf slot count) = 0 := by
  refine erases_of_programs fun op hop => ?_
  obtain ⟨i, -, -, rfl⟩ := mem_programOps count slot hop
  exact ⟨i, _, rfl⟩

theorem erases_appendOps (ws : List UInt16) : ∀ slot, erases (appendOps slot ws) = 0 := by
  induction ws with
  | nil =>
    intro slot
    rfl
  | cons w ws ih =>
    intro slot
    rw [appendOps, ← List.singleton_append, erases_append, ih]
    rfl

theorem take_eraseOps (k count : Nat) : ∀ page, (eraseOps page count).take k = eraseOps page (min k count) := by
  induction k generalizing count with
  | zero =>
    intro page
    rw [Nat.zero_min]
    rfl
  | succ k ih =>
    intro page
    cases count with
    | zero => rfl
    | succ count =>
      rw [Nat.succ_min_succ, eraseOps, List.take_succ_cons, ih, eraseOps]

theorem erases_compactOps (buf : Mem UInt8) : erases (compactOps f buf) = f.pageCount := by
  rw [compactOps, erases_append, erases_eraseOps, erases_programOps, Nat.add_zero]

variable {flash : Mem UInt16}

theorem compactOps_cuts {es : List Entry} (h : Image f flash es) (buf : Mem UInt8) :
    EveryCut (FlashOp.run f) (Leaves f fun _ => True) flash (compactOps f buf) := by
  have herased : ∀ i, f.logBase ≤ i → i < f.logLast →
      runAll (FlashOp.run f) flash (eraseOps 0 f.pageCount) i = FEE_EMPTY_WORD := by
    intro i _ hlt
    exact runAll_eraseOps_all flash hlt
  refine everyCut_append.mpr ⟨fun k => ?_, fun k => .inr ⟨[], image_nil fun i hi hlt => ?_, trivial⟩⟩
  · rw [take_eraseOps]
    by_cases hzero : min k f.pageCount = 0
    · rw [hzero]
      exact .inr ⟨es, h, trivial⟩
    · by_cases hall : min k f.pageCount = f.pageCount
      · rw [hall]
        exact .inr ⟨[], image_nil herased, trivial⟩
      · left
        rw [PartlyErased, erases_eraseOps]
        exact Nat.not_dvd_of_pos_of_lt (by omega) (by omega)
  · rw [runAll_of_programs _ fun op hop => ?_, herased i hi hlt]
    obtain ⟨j, -, hj, rfl⟩ := mem_programOps _ _ (List.mem_of_mem_take hop)
    exact ⟨j, _, rfl, by omega⟩

theorem runAll_compactOps {buf : Mem UInt8} {i : Nat} (h : i < f.logBase) :
    runAll (FlashOp.run f) flash (compactOps f buf) i = ~~~wordAt buf (2 * i) := by
  have hle := f.logBase_le
  rw [compactOps, runAll_append]
  exact runAll_programOps buf _ 0 _ i (Nat.zero_le i) (by omega) (runAll_eraseOps_all flash (by omega))

theorem runAll_compactOps_log {buf : Mem UInt8} {i : Nat} (h : f.logBase ≤ i) (hlt : i < f.logLast) :
    runAll (FlashOp.run f) flash (compactOps f buf) i = FEE_EMPTY_WORD := by
  rw [compactOps, runAll_append, runAll_of_programs _ fun op hop => ?_, runAll_eraseOps_all flash hlt]
  obtain ⟨j, -, hj, rfl⟩ := mem_programOps _ _ hop
  exact ⟨j, _, rfl, by omega⟩

theorem contents_compactOps {buf : Mem UInt8} (hout : ∀ a, f.densityBytes ≤ a → buf a = 0) :
    contents f (runAll (FlashOp.run f) flash (compactOps f buf)) [] = buf := by
  have hbase := f.two_mul_logBase
  funext a
  by_cases ha : a < f.densityBytes
  · refine loadCompacted_complement ha ?_
    rw [runAll_compactOps (by omega), Nat.mul_comm]
  · rw [hout a (by omega)]
    exact if_neg ha

theorem allowed_compactOps (flash : Mem UInt16) (buf : Mem UInt8) :
    Allowed (FlashOp.run f) (FlashOp.Legal f) flash (compactOps f buf) := by
  have hle := f.logBase_le
  refine (allowed_append _ _ _).mpr ⟨allowed_eraseOps _ _ _ (by omega), allowed_programOps _ _ _ _ (by omega) ?_⟩
  intro i _ hi
  exact runAll_eraseOps_all flash (by omega)

theorem compact_completes {s : Eeprom} {es : List Entry} (h : Image f s.flash es) (hpages : 0 < f.pageCount)
    (hout : ∀ a, f.densityBytes ≤ a → s.dataBuf a = 0) :
    Completes f s es (compactOps f s.dataBuf) (eepromCompact f s) [] ∧
      contents f (eepromCompact f s).flash [] = s.dataBuf := by
  obtain ⟨hp, hd, hslot⟩ := performs_eepromCompact (f := f) s
  have herases := erases_compactOps (f := f) s.dataBuf
  refine ⟨⟨hp, allowed_compactOps _ _, ⟨1, by omega⟩, ?_, ?_, hslot⟩, ?_⟩
  · refine (compactOps_cuts h s.dataBuf).mono fun done flash hcut => ?_
    exact hcut.imp_right fun ⟨es', himage, _⟩ => ⟨es', himage, fun hzero => by omega⟩
  · rw [hp.flash]
    exact image_nil fun i hi hlt => runAll_compactOps_log hi hlt
  · rw [hp.flash, contents_compactOps hout]

end Compact

section Steps

variable {f : Fee} {s s' s'' : Eeprom} {es es' es'' : List Entry} {ops ops' : List FlashOp}

theorem OldOrNew.trans {c₀ c₁ c₂ buf : Mem UInt8} (hmid : OldOrNew c₀ c₂ c₁) :
    OldOrNew c₀ c₁ buf ∨ OldOrNew c₁ c₂ buf → OldOrNew c₀ c₂ buf := by
  rintro (h | h) a
  · rcases h a with ha | ha
    · exact .inl ha
    · rw [ha]
      exact hmid a
  · rcases h a with ha | ha
    · rw [ha]
      exact hmid a
    · exact .inr ha

theorem Completes.refl (h : Image f s.flash es) (hslot : s.emptySlot = f.logBase + (encodeLog es).length) :
    Completes f s es [] s es :=
  ⟨Performs.refl s, trivial, Nat.dvd_zero _, everyCut_nil.mpr (.inr ⟨es, h, fun _ _ => .inl rfl⟩), h, hslot⟩

theorem Completes.trans (h : Completes f s es ops s' es') (h' : Completes f s' es' ops' s'' es'')
    (hmid : OldOrNew (contents f s.flash es) (contents f s''.flash es'') (contents f s'.flash es')) :
    Completes f s es (ops ++ ops') s'' es'' := by
  have hlegal' := h'.legal
  have hcuts' := h'.cuts
  rw [h.performs.flash] at hlegal' hcuts'
  refine ⟨h.performs.trans h'.performs, (allowed_append _ _ _).mpr ⟨h.legal, hlegal'⟩, ?_,
    everyCut_append.mpr ⟨h.cuts.mono fun done flash hcut => ?_, hcuts'.mono fun done flash hcut => ?_⟩, h'.image,
    h'.emptySlot⟩
  · rw [erases_append]
    exact Nat.dvd_add h.whole h'.whole
  · refine hcut.imp_right fun ⟨es₁, himage, hC⟩ => ⟨es₁, himage, fun hzero => ?_⟩
    rw [erases_append] at hzero
    exact hmid.trans (.inl (hC (by omega)))
  · rcases hcut with hpart | ⟨es₁, himage, hC⟩
    · left
      rw [PartlyErased, erases_append, ← Nat.dvd_add_iff_right h.whole]
      exact hpart
    · refine .inr ⟨es₁, himage, fun hzero => ?_⟩
      rw [erases_append] at hzero
      rw [← h.performs.flash] at hC
      exact hmid.trans (.inr (hC (by omega)))

/-- An entry takes one half-word, or is the first half of a torn one until its value is programmed. -/
theorem Entry.encode_cases (e : Entry) :
    (∃ w, e.encode = [w]) ∨
      ∃ address value, e.encode = [nextEntry address, value] ∧ (e.Valid f → (Entry.torn address).Valid f) ∧
        e.slot = address / 2 := by
  cases e with
  | byte address value => exact .inl ⟨_, rfl⟩
  | word address value =>
    rw [Entry.encode, wordEntry]
    split
    · exact .inl ⟨_, rfl⟩
    · exact .inr ⟨address, _, rfl, id, rfl⟩
  | torn address => exact .inr ⟨address, _, rfl, id, rfl⟩

variable {address : Nat}

theorem Image.torn {flash : Mem UInt16} (h : Image f flash es) (he : (Entry.torn address).Valid f)
    (hprog : flash (address / 2) ≠ FEE_EMPTY_WORD) (hfits : f.logBase + (encodeLog es).length + 2 ≤ f.logLast) :
    Image f (Function.update flash (f.logBase + (encodeLog es).length) (nextEntry address))
      (es ++ [.torn address]) := by
  have himage := h.append he hprog hfits
  have hempty := h.erased (f.logBase + (encodeLog es).length + 1) (by omega) (by omega)
  rwa [show flash.writeBlock (f.logBase + (encodeLog es).length) (Entry.torn address).encode =
    Function.update flash (f.logBase + (encodeLog es).length) (nextEntry address) from ?_] at himage
  refine Function.update_eq_self_iff.mpr ?_
  rw [Function.update_of_ne (by omega)]
  exact hempty.symm

theorem append_completes (h : Image f s.flash es) (hslot : s.emptySlot = f.logBase + (encodeLog es).length)
    {e : Entry} (he : e.Valid f) (hprog : s.flash e.slot ≠ FEE_EMPTY_WORD)
    (hfits : s.emptySlot + e.encode.length ≤ f.logLast) :
    Completes f s es (appendOps s.emptySlot e.encode) (appendEntry f e.encode s) (es ++ [e]) ∧
      contents f (appendEntry f e.encode s).flash (es ++ [e]) = e.apply (contents f s.flash es) := by
  obtain ⟨hp, hd, hslot'⟩ := performs_appendEntry (f := f) e.encode s
  have herases := erases_appendOps e.encode s.emptySlot
  rw [hslot] at hfits
  have himage := h.append he hprog hfits
  have hflash : (appendEntry f e.encode s).flash = s.flash.writeBlock s.emptySlot e.encode := by
    rw [hp.flash, runAll_appendOps]
  have hcontents : contents f (appendEntry f e.encode s).flash (es ++ [e]) = e.apply (contents f s.flash es) := by
    rw [hflash, contents_append, contents_writeBlock (by omega)]
    rfl
  refine ⟨⟨hp, ?_, by rw [herases]; exact Nat.dvd_zero _, ?_, by rw [hflash, hslot]; exact himage, ?_⟩, hcontents⟩
  · exact allowed_appendOps _ _ _ (by omega) fun i hi hlt => h.erased i (by omega) hlt
  · rw [hcontents]
    have hlast : Leaves f (fun buf => erases (appendOps s.emptySlot e.encode) = 0 →
        OldOrNew (contents f s.flash es) (e.apply (contents f s.flash es)) buf) (appendOps s.emptySlot e.encode)
        (appendEntry f e.encode s).flash := by
      refine .inr ⟨es ++ [e], by rw [hflash, hslot]; exact himage, fun _ a => .inr ?_⟩
      rw [hcontents]
    rw [hp.flash] at hlast
    rcases e.encode_cases (f := f) with ⟨w, hw⟩ | ⟨address, value, hw, htorn, hs⟩
    · rw [hw] at hlast ⊢
      exact everyCut_cons.mpr ⟨.inr ⟨es, h, fun _ _ => .inl rfl⟩, everyCut_nil.mpr hlast⟩
    · rw [hw] at hlast ⊢
      refine everyCut_cons.mpr ⟨.inr ⟨es, h, fun _ _ => .inl rfl⟩, everyCut_cons.mpr ⟨?_, everyCut_nil.mpr hlast⟩⟩
      rw [hs] at hprog
      rw [hw] at hfits
      refine .inr ⟨es ++ [.torn address], ?_, fun _ a => .inl ?_⟩
      · rw [hslot]
        exact h.torn (htorn he) hprog hfits
      · show contents f (s.flash.writeBlock s.emptySlot [nextEntry address]) (es ++ [.torn address]) a = _
        rw [contents_append, contents_writeBlock (by omega)]
        rfl
  · rw [hslot', hslot, encodeLog_append, encodeLog_singleton, List.length_append, Nat.add_assoc]

/-- The contents of an image with one half-word of the compacted area set, and no entry about it. -/
theorem Image.contents_eq {flash : Mem UInt16} (h : Image f flash es) {slot : Nat} (hlt : slot < f.logBase)
    (hno : ∀ e ∈ es, e.slot ≠ slot) {buf : Mem UInt8} (hset : flash slot = ~~~wordAt buf (slot * 2))
    (hagree : ∀ a, a / 2 ≠ slot → contents f flash es a = buf a) : contents f flash es = buf := by
  have hbase := f.two_mul_logBase
  funext a
  by_cases ha : a / 2 = slot
  · subst ha
    rw [contents, applyLog_of_ne es h.valid fun e he => (hno e he).symm]
    exact loadCompacted_complement (by omega) hset
  · exact hagree a ha

theorem direct_completes (h : Image f s.flash es) (hslot : s.emptySlot = f.logBase + (encodeLog es).length)
    (ha : address < f.densityBytes) (hagree : ∀ a, a / 2 ≠ address / 2 → contents f s.flash es a = s.dataBuf a)
    (hempty : s.flash (address / 2) = FEE_EMPTY_WORD) :
    ∃ ops s', writeDirectEntry f address s = (true, s') ∧ Completes f s es ops s' es ∧
      contents f s'.flash es = s.dataBuf ∧ s'.dataBuf = s.dataBuf := by
  have hbase := f.two_mul_logBase
  have hle := f.logBase_le
  have hlt : address / 2 < f.logBase := by omega
  have hno : ∀ e ∈ es, e.slot ≠ address / 2 := by
    intro e he heq
    exact h.programmed e he (heq ▸ hempty)
  by_cases hvalue : ~~~wordAt s.dataBuf (address / 2 * 2) = FEE_EMPTY_WORD
  · refine ⟨[], s, by rw [writeDirectEntry, if_pos hempty, if_pos hvalue], Completes.refl h hslot, ?_, rfl⟩
    exact h.contents_eq hlt hno (hempty.trans hvalue.symm) hagree
  · have himage := h.update hlt hempty (~~~wordAt s.dataBuf (address / 2 * 2))
    have hcontents : contents f (Function.update s.flash (address / 2) (~~~wordAt s.dataBuf (address / 2 * 2))) es =
        s.dataBuf := by
      refine himage.contents_eq hlt hno (Function.update_self _ _ _) fun a hne => ?_
      rw [← hagree a hne]
      exact applyLog_congr es (loadCompacted_congr (Function.update_of_ne hne _ _))
    have hwrite : writeDirectEntry f address s =
        (true, s.perform f (.programHalfWord (address / 2) (~~~wordAt s.dataBuf (address / 2 * 2)))) := by
      rw [writeDirectEntry, if_pos hempty, if_neg hvalue]
    generalize ~~~wordAt s.dataBuf (address / 2 * 2) = data at hwrite himage hcontents
    refine ⟨[.programHalfWord (address / 2) data], s.perform f (.programHalfWord (address / 2) data), hwrite,
      ⟨performs_perform s _, ⟨⟨by omega, hempty⟩, trivial⟩, Nat.dvd_zero _, ?_, himage, hslot⟩, hcontents, rfl⟩
    refine everyCut_cons.mpr ⟨.inr ⟨es, h, fun _ _ => .inl rfl⟩, everyCut_nil.mpr (.inr ⟨es, himage, fun _ _ => ?_⟩)⟩
    exact .inr rfl

theorem direct_programmed (hprog : s.flash (address / 2) ≠ FEE_EMPTY_WORD) :
    writeDirectEntry f address s = (false, s) := by
  rw [writeDirectEntry, if_neg hprog]

theorem byteEntry_completes (h : Image f s.flash es) (hslot : s.emptySlot = f.logBase + (encodeLog es).length)
    (hrange : address < FEE_BYTE_RANGE) (ha : address < f.densityBytes)
    (hprog : s.emptySlot < f.logLast → s.flash (address / 2) ≠ FEE_EMPTY_WORD)
    (hout : ∀ a, f.densityBytes ≤ a → s.dataBuf a = 0) (hpages : 0 < f.pageCount) :
    ∃ ops es', Completes f s es ops (writeLogByteEntry f address s) es' ∧
      (writeLogByteEntry f address s).dataBuf = s.dataBuf ∧
      (s.emptySlot < f.logLast ∧ (writeLogByteEntry f address s).flash (address / 2) = s.flash (address / 2) ∧
          contents f (writeLogByteEntry f address s).flash es' =
            Function.update (contents f s.flash es) address (s.dataBuf address) ∨
        f.logLast ≤ s.emptySlot ∧ (writeLogByteEntry f address s).emptySlot = f.logBase ∧
          (writeLogByteEntry f address s).flash (address / 2) = ~~~wordAt s.dataBuf (address / 2 * 2) ∧
          contents f (writeLogByteEntry f address s).flash es' = s.dataBuf) := by
  have hbase := f.two_mul_logBase
  by_cases hfull : s.emptySlot ≥ f.logLast
  · rw [writeLogByteEntry, if_pos hfull]
    obtain ⟨hp, hd, hslot'⟩ := performs_eepromCompact (f := f) s
    obtain ⟨hc, hcontents⟩ := compact_completes h hpages hout
    refine ⟨_, _, hc, hd, .inr ⟨hfull, hslot', ?_, hcontents⟩⟩
    rw [hp.flash, runAll_compactOps (by omega), Nat.mul_comm]
  · rw [writeLogByteEntry, if_neg hfull]
    obtain ⟨hp, hd, hslot'⟩ := performs_appendEntry (f := f) [byteEntry address (s.dataBuf address)] s
    obtain ⟨hc, hcontents⟩ := append_completes (e := .byte address (s.dataBuf address)) h hslot ⟨hrange, ha⟩
      (hprog (by omega)) (Nat.succ_le_of_lt (Nat.lt_of_not_ge hfull))
    refine ⟨_, _, hc, hd, .inl ⟨by omega, ?_, hcontents⟩⟩
    rw [hp.flash, runAll_appendOps, Mem.writeBlock_of_lt _ _ _ (by omega)]

theorem wordEntry_completes (h : Image f s.flash es) (hslot : s.emptySlot = f.logBase + (encodeLog es).length)
    (hrange : FEE_BYTE_RANGE ≤ address) (heven : address % 2 = 0) (ha : address < f.densityBytes)
    (hprog : s.flash (address / 2) ≠ FEE_EMPTY_WORD) (hout : ∀ a, f.densityBytes ≤ a → s.dataBuf a = 0)
    (hpages : 0 < f.pageCount) (hagree : ∀ a, a / 2 ≠ address / 2 → contents f s.flash es a = s.dataBuf a) :
    ∃ ops es', Completes f s es ops (writeLogWordEntry f address s) es' ∧
      (writeLogWordEntry f address s).dataBuf = s.dataBuf ∧
      contents f (writeLogWordEntry f address s).flash es' = s.dataBuf := by
  by_cases hfull : s.emptySlot + (wordEntry address (wordAt s.dataBuf address)).length > f.logLast
  · rw [writeLogWordEntry, if_pos hfull]
    obtain ⟨hp, hd, hslot'⟩ := performs_eepromCompact (f := f) s
    obtain ⟨hc, hcontents⟩ := compact_completes h hpages hout
    exact ⟨_, _, hc, hd, hcontents⟩
  · rw [writeLogWordEntry, if_neg hfull]
    obtain ⟨hp, hd, hslot'⟩ := performs_appendEntry (f := f) (wordEntry address (wordAt s.dataBuf address)) s
    obtain ⟨hc, hcontents⟩ := append_completes (e := .word address (wordAt s.dataBuf address)) h hslot
      ⟨hrange, heven, ha⟩ hprog (Nat.le_of_not_lt hfull)
    exact ⟨_, _, hc, hd, hcontents.trans (setWord_of_agree heven hagree)⟩

end Steps

end Legacy
end VialQmk
