import VialQmk.Legacy.Driver

/-!
# Legacy.Log

The write log as a list of entries, and what `EEPROM_Init` makes of it.

* `Entry`: what a write appends, or the first half of a word entry that was never completed.
* `replayLog_entries`: the second loop of `EEPROM_Init` applies the entries in order and stops behind them.
-/

namespace VialQmk
namespace Legacy

open Lib

inductive Entry
  | byte (address : Nat) (value : UInt8)
  | word (address : Nat) (value : UInt16)
  | torn (address : Nat)
  deriving DecidableEq, Repr

/-- The first half-word of an entry with the value in the next. -/
def nextEntry (address : Nat) : UInt16 :=
  (UInt16.ofNat (address - FEE_BYTE_RANGE) >>> 1) ||| (FEE_WORD_ENCODING ||| FEE_VALUE_NEXT)

namespace Entry

def encode : Entry → List UInt16
  | byte address value => [byteEntry address value]
  | word address value => wordEntry address value
  | torn address => [nextEntry address, FEE_EMPTY_WORD]

def apply (buf : Mem UInt8) : Entry → Mem UInt8
  | byte address value => Function.update buf address value
  | word address value => setWord buf address value
  | torn _ => buf

def Valid (f : Fee) : Entry → Prop
  | byte address _ => address < FEE_BYTE_RANGE ∧ address < f.densityBytes
  | word address _ | torn address => FEE_BYTE_RANGE ≤ address ∧ address % 2 = 0 ∧ address < f.densityBytes

/-- The half-word of the compacted area that the entry is about. -/
def slot : Entry → Nat
  | byte address _ | word address _ | torn address => address / 2

end Entry

def encodeLog (es : List Entry) : List UInt16 := es.flatMap Entry.encode

def applyLog (es : List Entry) (buf : Mem UInt8) : Mem UInt8 := es.foldl Entry.apply buf

@[simp]
theorem encodeLog_nil : encodeLog [] = [] := rfl

theorem encodeLog_append (es es' : List Entry) : encodeLog (es ++ es') = encodeLog es ++ encodeLog es' :=
  List.flatMap_append

@[simp]
theorem encodeLog_singleton (e : Entry) : encodeLog [e] = e.encode := List.append_nil _

theorem applyLog_append (es es' : List Entry) (buf : Mem UInt8) :
    applyLog (es ++ es') buf = applyLog es' (applyLog es buf) := List.foldl_append

section Fields

variable {address : Nat} (w : UInt16)

theorem lt_wordEncoding_iff : w &&& FEE_WORD_ENCODING = 0 ↔ w.toNat < 0x8000 := by
  have h := w.toNat_lt
  rw [← UInt16.toNat_inj, and_mask_toNat 1 15 rfl]
  show _ = 0 ↔ _
  omega

theorem valueNext_iff : w &&& FEE_VALUE_NEXT = FEE_VALUE_NEXT ↔ w.toNat / 0x2000 % 4 = 3 := by
  rw [← UInt16.toNat_inj, and_mask_toNat 2 13 rfl]
  show _ = 0x6000 ↔ _
  omega

theorem valueReserved_iff : w &&& FEE_VALUE_RESERVED ≠ 0 ↔ w.toNat / 0x4000 % 2 = 1 := by
  rw [ne_eq, ← UInt16.toNat_inj, and_mask_toNat 1 14 rfl]
  show ¬ _ = 0 ↔ _
  omega

theorem encodedAddress_toNat : ((w &&& 0x1FFF) <<< 1).toNat = w.toNat % 0x2000 * 2 := by
  rw [UInt16.toNat_shiftLeft, and_mask_toNat 13 0 rfl, Nat.shiftLeft_eq]
  show _ * 2 ^ 1 % 2 ^ 16 = _
  omega

theorem encodedValue_toNat : ((w &&& FEE_VALUE_ENCODED) >>> 13).toNat = w.toNat / 0x2000 % 2 := by
  rw [UInt16.toNat_shiftRight, and_mask_toNat 1 13 rfl, Nat.shiftRight_eq_div_pow]
  show _ / 2 ^ 13 = _
  omega

theorem halved_toNat (h : address < 2 ^ 16) : (UInt16.ofNat address >>> 1).toNat = address / 2 := by
  rw [UInt16.toNat_shiftRight, UInt16.toNat_ofNat', Nat.mod_eq_of_lt h, Nat.shiftRight_eq_div_pow]
  rfl

theorem byteEntry_toNat (h : address < FEE_BYTE_RANGE) (value : UInt8) :
    (byteEntry address value).toNat = address * 256 + value.toNat := by
  have hv := value.toNat_lt
  rw [FEE_BYTE_RANGE] at h
  have hshift : (UInt16.ofNat address <<< 8).toNat = address * 2 ^ 8 := by
    rw [UInt16.toNat_shiftLeft, UInt16.toNat_ofNat', Nat.shiftLeft_eq]
    show _ * 2 ^ 8 % 2 ^ 16 = _
    omega
  show _ = address * 2 ^ 8 + value.toNat
  rw [byteEntry, UInt16.toNat_or, hshift, UInt8.toNat_toUInt16, Nat.or_comm, or_field hv, Nat.add_comm]

theorem shortEntry_toNat (h : address < 0x4000) {value : UInt16} (hv : value ≤ 1) :
    ((UInt16.ofNat address >>> 1) ||| (FEE_WORD_ENCODING ||| (value <<< 13))).toNat =
      0x8000 + 0x2000 * value.toNat + address / 2 := by
  have hv' : value.toNat ≤ 1 := hv
  have hshift : (value <<< 13).toNat = value.toNat * 2 ^ 13 := by
    rw [UInt16.toNat_shiftLeft, Nat.shiftLeft_eq]
    show _ * 2 ^ 13 % 2 ^ 16 = _
    omega
  have hhigh : (FEE_WORD_ENCODING ||| (value <<< 13)).toNat = (4 + value.toNat) * 2 ^ 13 := by
    rw [UInt16.toNat_or, hshift, Nat.or_comm]
    show _ ||| 1 * 2 ^ 15 = _
    rw [or_field (by omega)]
    omega
  rw [UInt16.toNat_or, halved_toNat (by omega), hhigh, or_field (by omega)]
  omega

theorem nextEntry_toNat (h : address < 0x4000) :
    (nextEntry address).toNat = 0xE000 + (address - FEE_BYTE_RANGE) / 2 := by
  rw [nextEntry, UInt16.toNat_or, halved_toNat (by omega)]
  show _ ||| 7 * 2 ^ 13 = _
  rw [or_field (by omega)]
  omega

theorem not_empty_of_toNat {w : UInt16} {n : Nat} (h : w.toNat = n) (hn : n < 0xFFFF) : w ≠ FEE_EMPTY_WORD := by
  rintro rfl
  rw [← h] at hn
  exact absurd hn (by decide)

end Fields

section Replay

variable {f : Fee}

theorem passed_passed (m n : Nat) (r : Mem UInt8 × Nat) : passed m (passed n r) = passed (m + n) r := by
  rw [passed, passed, passed, Nat.add_assoc]

theorem replayLog_byte {address : Nat} (h : address < FEE_BYTE_RANGE) (value : UInt8) (buf : Mem UInt8)
    (rest : List UInt16) :
    replayLog f buf (byteEntry address value :: rest) =
      passed 1 (replayLog f (Function.update buf address value) rest) := by
  have hw := byteEntry_toNat h value
  have hv := value.toNat_lt
  rw [FEE_BYTE_RANGE] at h
  have haddr : (byteEntry address value >>> 8).toNat = address := by
    rw [UInt16.toNat_shiftRight, hw, Nat.shiftRight_eq_div_pow]
    show _ / 2 ^ 8 = _
    omega
  have hval : (byteEntry address value).toUInt8 = value := by
    apply UInt8.toNat_inj.mp
    rw [UInt16.toNat_toUInt8, hw]
    omega
  rw [replayLog.eq_def]
  dsimp only
  rw [if_neg (not_empty_of_toNat hw (by omega)), if_pos ((lt_wordEncoding_iff _).mpr (by omega)), haddr, hval]

theorem replayLog_short {address : Nat} (h : address < 0x4000) (heven : address % 2 = 0) (hf : address < f.densityBytes)
    {value : UInt16} (hv : value ≤ 1) (buf : Mem UInt8) (rest : List UInt16) :
    replayLog f buf (((UInt16.ofNat address >>> 1) ||| (FEE_WORD_ENCODING ||| (value <<< 13))) :: rest) =
      passed 1 (replayLog f (setWord buf address value) rest) := by
  have hw := shortEntry_toNat h hv
  have hv' : value.toNat ≤ 1 := hv
  generalize (UInt16.ofNat address >>> 1) ||| (FEE_WORD_ENCODING ||| (value <<< 13)) = w at hw ⊢
  have haddr : ((w &&& 0x1FFF) <<< 1).toNat = address := by
    rw [encodedAddress_toNat]
    omega
  have hval : (w &&& FEE_VALUE_ENCODED) >>> 13 = value := by
    apply UInt16.toNat_inj.mp
    rw [encodedValue_toNat]
    omega
  rw [replayLog.eq_def]
  dsimp only
  rw [if_neg (not_empty_of_toNat hw (by omega)), if_neg ((lt_wordEncoding_iff _).not.mpr (by omega)),
    if_neg ((valueNext_iff _).not.mpr (by omega)), if_neg ((valueReserved_iff _).not.mpr (by omega)), haddr, hval,
    replayWord, if_pos hf]

theorem replayLog_next {address : Nat} (h : address < 0x4000) (hrange : FEE_BYTE_RANGE ≤ address)
    (heven : address % 2 = 0) (buf : Mem UInt8) (value : UInt16) (rest : List UInt16) :
    replayLog f buf (nextEntry address :: value :: rest) =
      passed 2 (replayLog f (if ~~~value = 0 then buf else replayWord f buf address (~~~value)) rest) := by
  have hw := nextEntry_toNat h
  rw [FEE_BYTE_RANGE] at hw hrange
  generalize nextEntry address = w at hw ⊢
  have haddr : ((w &&& 0x1FFF) <<< 1).toNat + FEE_BYTE_RANGE = address := by
    rw [encodedAddress_toNat, FEE_BYTE_RANGE]
    omega
  rw [replayLog, if_neg (not_empty_of_toNat hw (by omega)), if_neg ((lt_wordEncoding_iff _).not.mpr (by omega)),
    if_pos ((valueNext_iff _).mpr (by omega)), haddr]
  split <;> rfl

theorem replayLog_entry {e : Entry} (h : e.Valid f) (buf : Mem UInt8) (rest : List UInt16) :
    replayLog f buf (e.encode ++ rest) = passed e.encode.length (replayLog f (e.apply buf) rest) := by
  have hle := f.density_le
  cases e with
  | byte address value => exact replayLog_byte h.1 value buf rest
  | word address value =>
    obtain ⟨hrange, heven, hf⟩ := h
    rw [Entry.encode, Entry.apply, wordEntry]
    by_cases hv : value ≤ 1
    · rw [if_pos hv]
      exact replayLog_short (by omega) heven hf hv buf rest
    · have hne : ~~~(~~~value) ≠ 0 := by
        rw [UInt16.not_not]
        rintro rfl
        exact hv (by decide)
      rw [if_neg hv]
      refine (replayLog_next (by omega) hrange heven buf (~~~value) rest).trans ?_
      rw [if_neg hne, UInt16.not_not, replayWord, if_pos hf]
      rfl
  | torn address =>
    obtain ⟨hrange, heven, hf⟩ := h
    exact replayLog_next (by omega) hrange heven buf FEE_EMPTY_WORD rest

theorem replayLog_entries (es : List Entry) (h : ∀ e ∈ es, e.Valid f) (rest : List UInt16) :
    ∀ buf, replayLog f buf (encodeLog es ++ rest) =
      passed (encodeLog es).length (replayLog f (applyLog es buf) rest) := by
  induction es with
  | nil =>
    intro buf
    rw [encodeLog_nil, List.nil_append, List.length_nil, passed, Nat.zero_add]
    rfl
  | cons e es ih =>
    intro buf
    rw [← List.singleton_append, encodeLog_append, encodeLog_singleton, List.append_assoc,
      replayLog_entry (h e List.mem_cons_self), ih (fun e' he => h e' (List.mem_cons_of_mem _ he)), passed_passed,
      List.length_append]
    rfl

theorem replayLog_empty (buf : Mem UInt8) (count : Nat) :
    replayLog f buf (List.replicate count FEE_EMPTY_WORD) = (buf, 0) := by
  cases count with
  | zero => rfl
  | succ count =>
    rw [List.replicate_succ, replayLog.eq_def]
    exact if_pos rfl

end Replay

end Legacy
end VialQmk
