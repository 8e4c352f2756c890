import Mathlib.Tactic.Common
import VialQmk.Lib.Mem

/-!
# WearLeveling.Entry

The write log of `wear_leveling_internal.h`: the configuration with its compile-time checks, and the
three encodings of a log entry. An entry is the eight bytes of `write_log_entry_t`; its words are
stored in order, as many as the encoding needs.
-/

namespace VialQmk
namespace WearLeveling

open Lib

/-- A configuration that compiles. Addresses are `uint32_t` and the store is addressable by them. -/
structure Config where
  /-- `BACKING_STORE_WRITE_SIZE`. -/
  writeSize : Nat
  /-- `WEAR_LEVELING_LOGICAL_SIZE`. -/
  logicalSize : Nat
  /-- `WEAR_LEVELING_BACKING_SIZE`. -/
  backingSize : Nat
  writeSize_cases : writeSize = 2 ∨ writeSize = 4 ∨ writeSize = 8
  logical_pos : 0 < logicalSize
  two_logical_le : logicalSize * 2 ≤ backingSize
  logical_mod : logicalSize % writeSize = 0
  backing_mod : backingSize % logicalSize = 0
  backing_lt : backingSize + 16 < 4294967296

/-- The first address of the write log, past the consolidated data and its checksum. -/
def Config.logBase (cfg : Config) : Nat := cfg.logicalSize + 8

abbrev Raw8 := Mem UInt8

def logEntryGetType (log : Raw8) : Nat := (log 0).toNat / 64

def logEntryMultibyteGetAddress (log : Raw8) : Nat :=
  (log 0).toNat % 8 * 65536 + (log 1).toNat * 256 + (log 2).toNat

def logEntryMultibyteGetLength (log : Raw8) : Nat := (log 0).toNat / 8 % 8

def logEntryOptimized64GetAddress (log : Raw8) : Nat := (log 0).toNat % 64

def logEntryOptimized64GetValue (log : Raw8) : UInt8 := log 1

def logEntryWord01GetAddress (log : Raw8) : Nat := (log 0).toNat % 32 * 512 + (log 1).toNat * 2

def logEntryWord01GetValue (log : Raw8) : UInt8 := ((log 0).toNat / 32 % 2).toUInt8

def logEntryMultibyteMaxBytes : Nat := 5

/-- `LOG_ENTRY_MAKE_MULTIBYTE` with the value bytes filled in: type 0. -/
def logEntryMakeMultibyte (address : Nat) (p : List UInt8) : List UInt8 :=
  [(p.length % 8 * 8 + address / 65536 % 8).toUInt8, (address / 256).toUInt8, address.toUInt8] ++
    p ++ List.replicate (5 - p.length) 0

def logEntryMakeOptimized64 (address : Nat) (value : UInt8) : List UInt8 :=
  [(64 + address % 64).toUInt8, value] ++ List.replicate 6 0

def logEntryMakeWord01 (address value : Nat) : List UInt8 :=
  [(128 + (if value = 0 then 0 else 1) * 32 + address / 512 % 32).toUInt8, (address / 2).toUInt8] ++
    List.replicate 6 0

/-- One round of the loop of `wear_leveling_write_raw`: the entry, the number of words of it that are
stored, and the number of bytes it takes from the data. -/
structure LogEntry where
  raw8 : List UInt8
  words : Nat
  consumed : Nat
  deriving DecidableEq, Repr

/-- The words `wear_leveling_write_raw_multibyte` stores for `length` bytes. -/
def Config.multibyteWords (cfg : Config) (length : Nat) : Nat :=
  if cfg.writeSize = 2 then 2 + (if length > 1 then 1 else 0) + (if length > 3 then 1 else 0)
  else if cfg.writeSize = 4 then 1 + (if length > 1 then 1 else 0)
  else 1

theorem Config.multibyteWords_bytes (cfg : Config) {l : Nat} (hl : l ≤ 5) :
    3 + l ≤ cfg.multibyteWords l * cfg.writeSize := by
  unfold Config.multibyteWords
  rcases cfg.writeSize_cases with h | h | h
  · rw [if_pos h, h]
    split <;> split <;> omega
  · rw [if_neg (by omega), if_pos h, h]
    split <;> omega
  · rw [if_neg (by omega), if_neg (by omega), h]
    omega

theorem Config.multibyteWords_le (cfg : Config) (l : Nat) :
    cfg.multibyteWords l * cfg.writeSize ≤ 8 := by
  unfold Config.multibyteWords
  rcases cfg.writeSize_cases with h | h | h
  · rw [if_pos h, h]
    split <;> split <;> omega
  · rw [if_neg (by omega), if_pos h, h]
    split <;> omega
  · exact Nat.le_of_eq (by rw [if_neg (by omega), if_neg (by omega), h])

def multibyteEntry (cfg : Config) (address : Nat) (p : List UInt8) : LogEntry :=
  let thisLength := if p.length ≥ logEntryMultibyteMaxBytes then logEntryMultibyteMaxBytes
    else p.length
  ⟨logEntryMakeMultibyte address (p.take thisLength), cfg.multibyteWords thisLength, thisLength⟩

/-- The entry for the data left at `address`, by value, length and address. -/
def nextEntry (cfg : Config) (address : Nat) (p : List UInt8) : LogEntry :=
  let v := (p.getD 1 0).toNat * 256 + (p.getD 0 0).toNat
  if cfg.writeSize = 2 ∧ p.length ≥ 2 ∧ address % 2 = 0 ∧ address < 16384 ∧ (v = 0 ∨ v = 1) then
    ⟨logEntryMakeWord01 address v, 1, 2⟩
  else if cfg.writeSize = 2 ∧ address < 64 then
    ⟨logEntryMakeOptimized64 address (p.getD 0 0), 1, 1⟩
  else multibyteEntry cfg address p

def LogEntry.storedWords (cfg : Config) (e : LogEntry) : List (List UInt8) :=
  (List.range e.words).map fun k => (e.raw8.drop (k * cfg.writeSize)).take cfg.writeSize

section Shape

variable {cfg : Config} {address : Nat} {p : List UInt8}

theorem makeMultibyte_length {chunk : List UInt8} (h : chunk.length ≤ 5) :
    (logEntryMakeMultibyte address chunk).length = 8 := by
  simp [logEntryMakeMultibyte]
  omega

theorem multibyteEntry_consumed (cfg : Config) (address : Nat) (hp : p ≠ []) :
    0 < (multibyteEntry cfg address p).consumed ∧ (multibyteEntry cfg address p).consumed ≤ 5 ∧
      (multibyteEntry cfg address p).consumed ≤ p.length := by
  have hpos := List.length_pos_iff.mpr hp
  simp only [multibyteEntry]
  by_cases h : p.length ≥ logEntryMultibyteMaxBytes
  · rw [if_pos h]
    exact ⟨by decide, by decide, h⟩
  · rw [if_neg h]
    simp only [logEntryMultibyteMaxBytes] at h
    omega

theorem nextEntry_consumed (cfg : Config) (address : Nat) (hp : p ≠ []) :
    0 < (nextEntry cfg address p).consumed ∧ (nextEntry cfg address p).consumed ≤ p.length := by
  simp only [nextEntry]
  split
  · rename_i h
    exact ⟨Nat.two_pos, h.2.1⟩
  · split
    · exact ⟨Nat.one_pos, List.length_pos_iff.mpr hp⟩
    · obtain ⟨h, -, h'⟩ := multibyteEntry_consumed cfg address hp
      exact ⟨h, h'⟩

theorem nextEntry_words_pos (cfg : Config) (address : Nat) (p : List UInt8) :
    0 < (nextEntry cfg address p).words := by
  simp only [nextEntry]
  split
  · exact Nat.one_pos
  · split
    · exact Nat.one_pos
    · simp only [multibyteEntry, Config.multibyteWords]
      split <;> (try split) <;> omega

theorem nextEntry_raw8 (cfg : Config) (address : Nat) (hp : p ≠ []) :
    (nextEntry cfg address p).raw8.length = 8 ∧
      (nextEntry cfg address p).words * cfg.writeSize ≤ 8 := by
  simp only [nextEntry]
  split
  · rename_i h
    simp [logEntryMakeWord01, h.1]
  · split
    · rename_i h
      simp [logEntryMakeOptimized64, h.1]
    · refine ⟨makeMultibyte_length ?_, cfg.multibyteWords_le _⟩
      rw [List.length_take]
      exact Nat.le_trans (Nat.min_le_left _ _) (multibyteEntry_consumed cfg address hp).2.1

theorem storedWords_length {e : LogEntry} (h : e.raw8.length = 8)
    (h' : e.words * cfg.writeSize ≤ 8) : ∀ v ∈ e.storedWords cfg, v.length = cfg.writeSize := by
  intro v hv
  simp only [LogEntry.storedWords, List.mem_map, List.mem_range] at hv
  obtain ⟨k, hk, rfl⟩ := hv
  have hmul := Nat.mul_le_mul_right cfg.writeSize hk
  rw [Nat.succ_mul] at hmul
  simp
  omega

theorem storedWords_flatten {e : LogEntry} {j : Nat} (hj : j ≤ e.words) :
    ((e.storedWords cfg).take j).flatten = e.raw8.take (j * cfg.writeSize) := by
  induction j with
  | zero => simp
  | succ j ih =>
    have hlt : j < (e.storedWords cfg).length := by
      simp only [LogEntry.storedWords, List.length_map, List.length_range]
      omega
    rw [List.take_add_one, List.getElem?_eq_getElem hlt, List.flatten_append, ih (by omega),
      Nat.succ_mul, List.take_add]
    simp [LogEntry.storedWords]

end Shape

end WearLeveling
end VialQmk
