import VialQmk.Painter.RoundTrip

/-!
# Painter.Complete

Whether the compressed form consists of complete runs, and the decoder ends where they end.

* `OpenRun`: the run that the bytes so far leave open, by the limits of the format alone.
* `rle_well_formed_iff`: the compressed form is well-formed exactly for the inputs that leave a run open. Behind
  the others, the empty one among them, the converter writes the marker of an empty range.
-/

namespace VialQmk
namespace Painter

open Lib

/-- The bytes are divided into runs from the first one on. A run of differing bytes ends behind its 128th byte, or
before two that are the same; one that repeats ends before another byte, or behind its 127th. -/
inductive OpenRun where
  | none
  | literal (count : Nat) (last : Nat)
  | repeated (count : Nat) (byte : Nat)
  deriving DecidableEq, Repr

def OpenRun.next : OpenRun → Nat → OpenRun
  | .none, c => .literal 1 c
  | .literal count last, c =>
    if c = last then .repeated 2 c else if count + 1 = 128 then .none else .literal (count + 1) c
  | .repeated count byte, c => if c = byte ∧ count + 1 < 128 then .repeated (count + 1) c else .literal 1 c

def openRun (bytes : List Nat) : OpenRun := bytes.foldl OpenRun.next .none

def Holds (s : RleState) : OpenRun → Prop
  | .none => s.isRepeat = false ∧ s.temp = []
  | .literal count last => s.isRepeat = false ∧ ∃ t, s.temp = t ++ [last] ∧ t.length + 1 = count
  | .repeated count byte => s.isRepeat = true ∧ ∃ k, s.temp = List.replicate (k + 1) byte ∧ k + 1 = count ∧ 1 ≤ k ∧ count < 128

theorem Holds.temp_eq_nil_iff {s : RleState} {r : OpenRun} (h : Holds s r) : s.temp = [] ↔ r = .none := by
  cases r with
  | none => exact ⟨fun _ => rfl, fun _ => h.2⟩
  | literal count last =>
    obtain ⟨-, t, htemp, -⟩ := h
    exact ⟨fun hnil => absurd (htemp.symm.trans hnil) (by simp), fun hfalse => nomatch hfalse⟩
  | repeated count byte =>
    obtain ⟨-, k, htemp, -⟩ := h
    exact ⟨fun hnil => absurd (htemp.symm.trans hnil) (by simp), fun hfalse => nomatch hfalse⟩

theorem Holds.next {s : RleState} {r : OpenRun} (h : Holds s r) (c : Nat) : Holds (compressByte s c) (r.next c) := by
  cases r with
  | none =>
    rw [compressByte_of_nil h.2]
    exact ⟨h.1, [], rfl, rfl⟩
  | literal count last =>
    obtain ⟨hrep, t, htemp, hcount⟩ := h
    rw [compressByte_of_concat hrep htemp, OpenRun.next]
    by_cases hsame : c = last
    · rw [if_pos hsame, if_pos hsame]
      split <;> exact ⟨rfl, 1, rfl, rfl, Nat.le_refl 1, by decide⟩
    · rw [if_neg hsame, if_neg hsame]
      by_cases hfull : t.length + 2 = 128
      · rw [if_pos hfull, if_pos (by omega)]
        exact ⟨rfl, rfl⟩
      · rw [if_neg hfull, if_neg (by omega)]
        exact ⟨hrep, s.temp, rfl, by rw [htemp, List.length_append, List.length_singleton, hcount]⟩
  | repeated count byte =>
    obtain ⟨hrep, k, htemp, hcount, hk, hlt⟩ := h
    rw [compressByte_of_repeated hrep htemp hk, OpenRun.next]
    by_cases hgoes : c = byte ∧ count + 1 < 128
    · rw [if_neg (by omega), if_pos hgoes]
      refine ⟨hrep, k + 1, ?_, by omega, by omega, hgoes.2⟩
      rw [hgoes.1, htemp, ← List.replicate_succ']
    · rw [if_pos (by omega), if_neg hgoes]
      exact ⟨rfl, [], rfl, rfl⟩

theorem leftOver_eq_nil_iff (bytes : List Nat) : leftOver bytes = [] ↔ openRun bytes = .none := by
  have hfold : ∀ {s : RleState} {r : OpenRun}, Holds s r →
      Holds (bytes.foldl compressByte s) (bytes.foldl OpenRun.next r) := by
    induction bytes with
    | nil => exact id
    | cons c bytes ih => exact fun h => ih (h.next c)
  have hstart : Holds ⟨[], [], false⟩ .none := ⟨rfl, rfl⟩
  exact (hfold hstart).temp_eq_nil_iff

def Complete (stored : List Nat) : Prop := ∃ runs : List Run, stored = runs.flatMap Run.bytes

theorem run_bytes_length {run run' : Run} {t t' : List Nat} (h : run.bytes ++ t = run'.bytes ++ t') :
    run.bytes.length = run'.bytes.length := by
  cases run with
  | repeated count byte hcount =>
    cases run' with
    | repeated => rfl
    | literal bytes hlen =>
      have hmarker : count = 127 + bytes.length := (List.cons.inj h).1
      have hpos := List.length_pos_iff.mpr hlen.1
      omega
  | literal bytes hlen =>
    cases run' with
    | repeated count byte hcount =>
      have hmarker : 127 + bytes.length = count := (List.cons.inj h).1
      have hpos := List.length_pos_iff.mpr hlen.1
      omega
    | literal bytes' hlen' =>
      have hmarker : 127 + bytes.length = 127 + bytes'.length := (List.cons.inj h).1
      show bytes.length + 1 = bytes'.length + 1
      omega

theorem complete_of_append {runs : List Run} {t : List Nat} (h : Complete (runs.flatMap Run.bytes ++ t)) :
    Complete t := by
  induction runs with
  | nil => exact h
  | cons run runs ih =>
    obtain ⟨runs', heq⟩ := h
    rw [List.flatMap_cons, List.append_assoc] at heq
    cases runs' with
    | nil =>
      cases run <;> exact absurd heq (by simp [Run.bytes, rangeBytes])
    | cons run' runs' =>
      rw [List.flatMap_cons] at heq
      exact ih ⟨runs', (List.append_inj heq (run_bytes_length heq)).2⟩

theorem not_complete_marker : ¬ Complete (rangeBytes []) := by
  rintro ⟨runs, heq⟩
  cases runs with
  | nil => exact absurd heq (by simp [rangeBytes])
  | cons run runs =>
    cases run with
    | repeated count byte hcount => exact absurd heq (by simp [rangeBytes, Run.bytes])
    | literal bytes hlen =>
      have hrest : [] = bytes ++ runs.flatMap Run.bytes := (List.cons.inj heq).2
      exact hlen.1 (List.append_eq_nil_iff.mp hrest.symm).1

def DecodesTo (stored bytes : List Nat) : Prop :=
  ∃ calls, readWhile qpDrawimageByteRleDecoder MoreToRead calls (prepareInputState (storedBytes stored)) =
    some (bytes.map Int.ofNat)

theorem runs_decode {runs : List Run} {bytes : List Nat} (hdata : runs.flatMap Run.data = bytes)
    (hbytes : ∀ b ∈ bytes, b < 256) : DecodesTo (runs.flatMap Run.bytes) bytes := by
  have hstream : (prepareInputState (storedBytes (runs.flatMap Run.bytes))).srcStream =
      storedBytes (runs.flatMap Run.bytes) ++ [] := (List.append_nil _).symm
  obtain ⟨s', hyields, hend⟩ := runs_yield hdata hbytes rfl hstream
  exact ⟨_, readWhile_of_yields hyields fun hmore => hmore ⟨hend.1, hend.2.2⟩⟩

theorem not_complete_of_openRun {bytes : List Nat} (hnone : openRun bytes = .none) :
    ¬ Complete (compressBytesQmkRle bytes) := by
  obtain ⟨runs, houtput, -⟩ := compress_runs bytes
  rw [houtput, if_pos ((leftOver_eq_nil_iff bytes).mpr hnone)]
  exact fun h => not_complete_marker (complete_of_append h)

/-- The compressed form is well-formed exactly for the inputs that leave a run open. -/
theorem rle_well_formed_iff (bytearray : List UInt8) :
    let bytes := bytearray.map UInt8.toNat
    Complete (compressBytesQmkRle bytes) ∧ DecodesTo (compressBytesQmkRle bytes) bytes ↔ openRun bytes ≠ .none := by
  intro bytes
  constructor
  · exact fun h hnone => not_complete_of_openRun hnone h.1
  · intro hopen
    obtain ⟨runs, houtput, hdata⟩ := compress_runs bytes
    rw [if_neg (mt (leftOver_eq_nil_iff bytes).mp hopen), List.append_nil] at houtput
    have hbytes : ∀ b ∈ bytes, b < 256 := by
      intro b hb
      obtain ⟨c, -, rfl⟩ := List.mem_map.mp hb
      exact c.toNat_lt
    rw [houtput]
    exact ⟨⟨runs, rfl⟩, runs_decode hdata hbytes⟩

/-- As many bytes as a run can have, no two of them the same. -/
theorem rle_full_run :
    let bytes := ((List.range 128).map UInt8.ofNat).map UInt8.toNat
    ¬ (Complete (compressBytesQmkRle bytes) ∧ DecodesTo (compressBytesQmkRle bytes) bytes) :=
  fun h => not_complete_of_openRun (by decide +kernel) h.1

end Painter
end VialQmk
