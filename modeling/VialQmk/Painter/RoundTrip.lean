import Mathlib.Data.Nat.Digits.Defs
import Mathlib.Data.Nat.Log
import VialQmk.Lib.Reader
import VialQmk.Painter.Codec

/-!
# Painter.RoundTrip

The decoder of the firmware takes back what the converter wrote. A packed byte is a number whose digits,
to the base of the number of colours, are the pixels (`packByte_digits`); a compressed stream is a
sequence of runs (`Run`), each of which the decoder reads from its marker on (`rleDecoder_run`).

* `painter_round_trip`: every valid list of palette indices comes back, from either storage format.
-/

namespace VialQmk
namespace Painter

open Lib

section Packing

variable {bpp : Nat}

/-- A byte for as many pixels as fit, the first one in the lowest bits. -/
def packedBytes (bpp : Nat) (pixels : List Nat) : List Nat :=
  (List.range ((pixels.length + (8 / bpp - 1)) / (8 / bpp))).map fun x =>
    Nat.ofDigits (2 ^ bpp) ((pixels.drop (x * (8 / bpp))).take (8 / bpp))

theorem packedBytes_nil (h : 0 < 8 / bpp) : packedBytes bpp [] = [] := by
  have hcount : (0 + (8 / bpp - 1)) / (8 / bpp) = 0 := Nat.div_eq_of_lt (by omega)
  rw [packedBytes, List.length_nil, hcount]
  rfl

theorem packedBytes_of_ne_nil (h : 0 < 8 / bpp) {pixels : List Nat} (hne : pixels ≠ []) :
    packedBytes bpp pixels =
      Nat.ofDigits (2 ^ bpp) (pixels.take (8 / bpp)) :: packedBytes bpp (pixels.drop (8 / bpp)) := by
  have hpos : 0 < pixels.length := List.length_pos_iff.mpr hne
  have hcount : (pixels.length + (8 / bpp - 1)) / (8 / bpp) =
      ((pixels.drop (8 / bpp)).length + (8 / bpp - 1)) / (8 / bpp) + 1 := by
    rw [List.length_drop, ← Nat.add_div_right _ h]
    rcases Nat.lt_or_ge pixels.length (8 / bpp) with hlt | hge
    · rw [Nat.sub_eq_zero_of_le hlt.le, Nat.div_eq_of_lt_le (k := 1) (by omega) (by omega),
        Nat.div_eq_of_lt_le (k := 1) (by omega) (by omega)]
    · congr 1
      omega
  rw [packedBytes, packedBytes, hcount, List.range_succ_eq_map, List.map_cons, List.map_map]
  congr 1
  · rw [Nat.zero_mul, List.drop_zero]
  · refine List.map_congr_left fun x _ => ?_
    rw [Function.comp_apply, List.drop_drop, Nat.succ_mul, Nat.add_comm]

theorem or_shiftLeft_digit {m : Nat} {ds : List Nat} {d : Nat} (hbpp : 0 < bpp) (hds : ∀ x ∈ ds, x < 2 ^ bpp)
    (hm : ds.length = m) :
    Nat.ofDigits (2 ^ bpp) ds ||| (d <<< (m * bpp)) = Nat.ofDigits (2 ^ bpp) (ds ++ [d]) := by
  have hlt : Nat.ofDigits (2 ^ bpp) ds < 2 ^ (m * bpp) := by
    have hbase : 1 < 2 ^ bpp := Nat.one_lt_two_pow (by omega)
    have hlt := Nat.ofDigits_lt_base_pow_length hbase hds
    rwa [hm, ← Nat.pow_mul, Nat.mul_comm] at hlt
  rw [Nat.or_comm, ← Nat.shiftLeft_add_eq_or_of_lt hlt, Nat.ofDigits_append, Nat.ofDigits_singleton, hm,
    Nat.shiftLeft_eq, ← Nat.pow_mul, Nat.mul_comm m bpp]
  ring

theorem bitsPerColor_two_pow : bitsPerColor (2 ^ bpp) = bpp := Nat.log2_two_pow

theorem packByte_digits (hbpp : 0 < bpp) {pixels : List Nat} (hvalid : ∀ p ∈ pixels, p < 2 ^ bpp) (x : Nat) :
    packByte (2 ^ bpp) pixels x =
      Nat.ofDigits (2 ^ bpp) ((pixels.drop (x * (8 / bpp))).take (8 / bpp)) := by
  rw [packByte, bitsPerColor_two_pow]
  generalize 8 / bpp = pixelsPerByte
  -- by induction on the pixels that the byte has so far
  suffices hfold : ∀ m, (List.range m).foldl (fun byte n =>
      if x * pixelsPerByte + n < pixels.length then
        byte ||| ((pixels.getD (x * pixelsPerByte + n) 0 &&& (2 ^ bpp - 1)) <<< (n * bpp))
      else byte) 0 = Nat.ofDigits (2 ^ bpp) ((pixels.drop (x * pixelsPerByte)).take m) from hfold _
  intro m
  induction m with
  | zero => rfl
  | succ m ih =>
    rw [List.range_succ, List.foldl_append, ih, List.foldl_cons, List.foldl_nil, List.take_add_one]
    split
    · rename_i hlt
      have hget : (pixels.drop (x * pixelsPerByte))[m]? = some (pixels.getD (x * pixelsPerByte + m) 0) := by
        rw [List.getElem?_drop, List.getD_eq_getElem?_getD, List.getElem?_eq_getElem hlt, Option.getD_some]
      have hpixel : pixels.getD (x * pixelsPerByte + m) 0 < 2 ^ bpp := by
        rw [List.getD_eq_getElem?_getD, List.getElem?_eq_getElem hlt, Option.getD_some]
        exact hvalid _ (List.getElem_mem hlt)
      rw [hget, Nat.and_two_pow_sub_one_of_lt_two_pow hpixel]
      refine or_shiftLeft_digit hbpp ?_ ?_
      · exact fun p hp => hvalid p (List.mem_of_mem_drop (List.mem_of_mem_take hp))
      · rw [List.length_take, List.length_drop]
        omega
    · rename_i hge
      have hget : (pixels.drop (x * pixelsPerByte))[m]? = none := by
        rw [List.getElem?_drop]
        exact List.getElem?_eq_none (by omega)
      rw [hget, Option.toList_none, List.append_nil]

theorem convertImageBytes_packed (h : 0 < 8 / bpp) {im : IndexedImage} (hvalid : ∀ p ∈ im.pixels, p < 2 ^ bpp) :
    convertImageBytes (2 ^ bpp) im = packedBytes bpp im.pixels := by
  have hbpp : 0 < bpp := by
    rcases Nat.eq_zero_or_pos bpp with rfl | hpos
    · simp at h
    · exact hpos
  rw [convertImageBytes, packedBytes, bitsPerColor_two_pow, if_pos (by omega), im.size]
  exact List.map_congr_left fun x _ => packByte_digits hbpp hvalid x

theorem packedBytes_lt (hbpp : 0 < bpp) {pixels : List Nat} (hvalid : ∀ p ∈ pixels, p < 2 ^ bpp) :
    ∀ b ∈ packedBytes bpp pixels, b < 256 := by
  intro b hb
  obtain ⟨x, -, rfl⟩ := List.mem_map.mp hb
  have hbase : 1 < 2 ^ bpp := Nat.one_lt_two_pow (by omega)
  have hlt := Nat.ofDigits_lt_base_pow_length hbase (l := (pixels.drop (x * (8 / bpp))).take (8 / bpp))
    fun p hp => hvalid p (List.mem_of_mem_drop (List.mem_of_mem_take hp))
  refine hlt.trans_le ?_
  rw [← Nat.pow_mul]
  refine (Nat.pow_le_pow_right (by decide) ?_).trans_eq (rfl : 2 ^ 8 = 256)
  have hlen : ((pixels.drop (x * (8 / bpp))).take (8 / bpp)).length ≤ 8 / bpp := List.length_take_le _ _
  exact (Nat.mul_le_mul_left bpp hlen).trans (Nat.mul_div_le 8 bpp)

end Packing

def appendIndex (index : UInt8) (written : List UInt8) : Bool × List UInt8 := (true, written ++ [index])

section Decoder

variable {σ : Type} {inputCallback : σ → Int × σ} {bpp : Nat}

theorem decodePixels_digits (hbpp : bpp ≤ 8) {ds : List Nat} (hds : ∀ d ∈ ds, d < 2 ^ bpp) (written : List UInt8) :
    decodePixels appendIndex bpp ds.length (Nat.ofDigits (2 ^ bpp) ds) written =
      (true, written ++ ds.map UInt8.ofNat) := by
  induction ds generalizing written with
  | nil => simp [decodePixels]
  | cons d ds ih =>
    have hd : d < 2 ^ bpp := hds d (by simp)
    have hmask : (1 <<< bpp - 1) % 256 = 2 ^ bpp - 1 := by
      rw [Nat.one_shiftLeft]
      have hle : 2 ^ bpp ≤ 2 ^ 8 := Nat.pow_le_pow_right (by decide) hbpp
      exact Nat.mod_eq_of_lt (by omega)
    have hand : Nat.ofDigits (2 ^ bpp) (d :: ds) &&& (2 ^ bpp - 1) = d := by
      rw [Nat.and_two_pow_sub_one_eq_mod, Nat.ofDigits_cons, Nat.add_mul_mod_self_left, Nat.mod_eq_of_lt hd]
    have hshift : Nat.ofDigits (2 ^ bpp) (d :: ds) >>> bpp = Nat.ofDigits (2 ^ bpp) ds := by
      rw [Nat.shiftRight_eq_div_pow, Nat.ofDigits_cons, Nat.add_mul_div_left _ _ (by positivity),
        Nat.div_eq_of_lt hd, Nat.zero_add]
    rw [List.length_cons, decodePixels, hmask, hand, hshift]
    simp only [appendIndex, if_true]
    have hrest := ih (fun d hd => hds d (List.mem_cons_of_mem _ hd)) (written ++ [UInt8.ofNat d])
    simpa [List.append_assoc] using hrest

theorem decodeBytes_packed (h : 0 < 8 / bpp) (hbpp : bpp ≤ 8) {rounds : Nat} :
    ∀ {pixels : List Nat} {s s' : σ} {written : List UInt8}, pixels.length ≤ rounds →
      (∀ p ∈ pixels, p < 2 ^ bpp) →
      YieldsTo inputCallback s ((packedBytes bpp pixels).map Int.ofNat) s' →
      decodeBytes inputCallback appendIndex bpp rounds pixels.length s written =
        some (true, s', written ++ pixels.map UInt8.ofNat) := by
  induction rounds with
  | zero =>
    intro pixels s s' written hrounds _ hyields
    have hnil : pixels = [] := List.length_eq_zero_iff.mp (by omega)
    subst hnil
    rw [packedBytes_nil h] at hyields
    cases hyields
    simp [decodeBytes]
  | succ rounds ih =>
    intro pixels s s' written hrounds hvalid hyields
    by_cases hnil : pixels = []
    · subst hnil
      rw [packedBytes_nil h] at hyields
      cases hyields
      simp [decodeBytes]
    · have hpos : 0 < pixels.length := List.length_pos_iff.mpr hnil
      rw [packedBytes_of_ne_nil h hnil, List.map_cons] at hyields
      obtain ⟨hbyte, hrest⟩ := hyields
      have hloop : (if pixels.length < 8 / bpp then pixels.length else 8 / bpp) =
          (pixels.take (8 / bpp)).length := by
        rw [List.length_take]
        split <;> omega
      have hremain : pixels.length - (pixels.take (8 / bpp)).length = (pixels.drop (8 / bpp)).length := by
        rw [List.length_take, List.length_drop]
        omega
      have hinner := decodePixels_digits hbpp
        (fun p hp => hvalid p (List.mem_of_mem_take hp) : ∀ p ∈ pixels.take (8 / bpp), p < 2 ^ bpp) written
      rw [decodeBytes, if_neg (by omega)]
      simp only [hbyte, hloop, hremain]
      rw [if_neg (by simp)]
      simp only [Int.ofNat_eq_natCast, Int.toNat_natCast, hinner, if_true]
      rw [ih (by rw [List.length_drop]; omega) (fun p hp => hvalid p (List.mem_of_mem_drop hp)) hrest,
        List.append_assoc, ← List.map_append, List.take_append_drop]

end Decoder

theorem uncompressed_yields (bytes : List Nat) (hbytes : ∀ b ∈ bytes, b < 256) (state : ByteInputState)
    (hstream : state.srcStream = storedBytes bytes) :
    ∃ s', YieldsTo qpDrawimageByteUncompressedDecoder state (bytes.map Int.ofNat) s' := by
  induction bytes generalizing state with
  | nil => exact ⟨state, rfl⟩
  | cons b bytes ih =>
    have hb : b % 256 = b := Nat.mod_eq_of_lt (hbytes b (by simp))
    obtain ⟨s', hrest⟩ := ih (fun b hb => hbytes b (List.mem_cons_of_mem _ hb))
      (qpDrawimageByteUncompressedDecoder state).2
      (by simp [qpDrawimageByteUncompressedDecoder, hstream, qpStreamGet, storedBytes])
    refine ⟨s', ?_, hrest⟩
    simp [qpDrawimageByteUncompressedDecoder, hstream, qpStreamGet, storedBytes, hb]

/-- A run of the compressed form, within what its marker byte can say. -/
inductive Run where
  | repeated (count : Nat) (byte : Nat) (h : 1 ≤ count ∧ count < 128)
  | literal (bytes : List Nat) (h : bytes ≠ [] ∧ bytes.length ≤ 128)

def Run.bytes : Run → List Nat
  | .repeated count byte _ => [count, byte]
  | .literal bytes _ => rangeBytes bytes

def Run.data : Run → List Nat
  | .repeated count byte _ => List.replicate count byte
  | .literal bytes _ => bytes

@[simp]
theorem fromEnd_one (l : List Nat) (c : Nat) : fromEnd (l ++ [c]) 1 = c := by simp [fromEnd]

@[simp]
theorem fromEnd_two (l : List Nat) (b c : Nat) : fromEnd (l ++ [b] ++ [c]) 2 = b := by
  simp [fromEnd, List.getD_eq_getElem?_getD]

/-- What `compress_bytes_qmk_rle` has done with the bytes it has seen. -/
structure Compressing (seen : List Nat) (s : RleState) : Prop where
  runs : ∃ runs : List Run, runs.flatMap Run.bytes = s.output ∧ runs.flatMap Run.data ++ s.temp = seen
  repeated : s.isRepeat = true → ∃ k c, 2 ≤ k ∧ k < 128 ∧ s.temp = List.replicate k c
  differing : s.isRepeat = false → s.temp.length < 128 ∧ ∀ t b c, s.temp = t ++ [b] ++ [c] → b ≠ c

variable {seen : List Nat} {s : RleState} {state : ByteInputState}

theorem Compressing.emit {s' : RleState} (h : Compressing seen s) (run : Run)
    (houtput : s'.output = s.output ++ run.bytes) {rest : List Nat} (htemp : s.temp ++ rest = run.data ++ s'.temp)
    (hrepeated : s'.isRepeat = true → ∃ k c, 2 ≤ k ∧ k < 128 ∧ s'.temp = List.replicate k c)
    (hdiffering : s'.isRepeat = false → s'.temp.length < 128 ∧ ∀ t b c, s'.temp = t ++ [b] ++ [c] → b ≠ c) :
    Compressing (seen ++ rest) s' := by
  obtain ⟨runs, hbytes, hdata⟩ := h.runs
  refine ⟨⟨runs ++ [run], ?_, ?_⟩, hrepeated, hdiffering⟩
  · rw [List.flatMap_append, hbytes, houtput]
    simp
  · rw [List.flatMap_append, List.flatMap_singleton, List.append_assoc, ← htemp, ← List.append_assoc, hdata]

theorem singleton_differing {c : Nat} : [c].length < 128 ∧ ∀ t b c', [c] = t ++ [b] ++ [c'] → b ≠ c' := by
  refine ⟨by simp, fun t b c' h => ?_⟩
  have hlen := congrArg List.length h
  simp at hlen

theorem compressByte_of_repeated {k b : Nat} (hrep : s.isRepeat = true) (htemp : s.temp = List.replicate (k + 1) b)
    (hk : 1 ≤ k) (c : Nat) : compressByte s c =
      if c ≠ b ∨ k + 2 = 128 then ⟨s.output ++ [k + 1, b], [c], false⟩ else { s with temp := s.temp ++ [c] } := by
  have hlen : (s.temp ++ [c]).length = k + 2 := by simp [htemp]
  have htwo : fromEnd (s.temp ++ [c]) 2 = b := by rw [htemp, List.replicate_succ', fromEnd_two]
  have hfirst : (s.temp ++ [c]).getD 0 0 = b := by rw [htemp, List.replicate_succ]; rfl
  rw [compressByte]
  simp only [hlen]
  rw [if_neg (by omega), compressRound]
  simp only [hrep, fromEnd_one, htwo, hlen, hfirst, if_true, Bool.false_eq_true, or_false, if_false,
    decide_eq_false_iff_not]
  rfl

theorem compressByte_of_nil (htemp : s.temp = []) (c : Nat) : compressByte s c = { s with temp := [c] } := by
  rw [compressByte]
  simp only [htemp, List.nil_append, List.length_singleton]
  rfl

theorem compressByte_of_concat {t : List Nat} {b : Nat} (hrep : s.isRepeat = false) (htemp : s.temp = t ++ [b])
    (c : Nat) : compressByte s c =
      if c = b then
        if t = [] then { s with temp := [c, c], isRepeat := true } else ⟨s.output ++ rangeBytes t, [c, c], true⟩
      else if t.length + 2 = 128 then ⟨s.output ++ rangeBytes (s.temp ++ [c]), [], false⟩
      else { s with temp := s.temp ++ [c] } := by
  have hlen : (s.temp ++ [c]).length = t.length + 2 := by simp [htemp]
  have htwo : fromEnd (s.temp ++ [c]) 2 = b := by rw [htemp, fromEnd_two]
  rw [compressByte]
  simp only [hlen]
  rw [if_neg (by omega), compressRound]
  simp only [hrep, fromEnd_one, htwo, hlen, Bool.false_eq_true, if_false, or_false]
  by_cases hsame : c = b
  · rw [if_pos ⟨by omega, hsame⟩, if_pos hsame]
    by_cases hnil : t = []
    · rw [if_neg (by simp [hnil]), if_pos hnil, htemp, hnil, hsame]
      rfl
    · have hpos : 0 < t.length := List.length_pos_iff.mpr hnil
      have htake : (s.temp ++ [c]).take (t.length + 2 - 2) = t := by simp [htemp]
      rw [if_pos (by omega), if_neg hnil, htake]
  · rw [if_neg fun h => hsame h.2, if_neg hsame]

theorem compressByte_repeated (h : Compressing seen s) (hrep : s.isRepeat = true) (c : Nat) :
    Compressing (seen ++ [c]) (compressByte s c) := by
  obtain ⟨k, b, hk, hk', htemp⟩ := h.repeated hrep
  obtain ⟨k, rfl⟩ : ∃ j, k = j + 1 := ⟨k - 1, by omega⟩
  rw [compressByte_of_repeated hrep htemp (by omega)]
  split
  · refine h.emit (.repeated (k + 1) b ⟨by omega, hk'⟩) rfl ?_ (by simp) fun _ => singleton_differing
    rw [htemp]
    rfl
  · rename_i hkeep
    push Not at hkeep
    obtain ⟨runs, hbytes, hdata⟩ := h.runs
    refine ⟨⟨runs, hbytes, ?_⟩, fun _ => ⟨k + 2, b, by omega, by omega, ?_⟩, fun hfalse => ?_⟩
    · rw [← List.append_assoc, hdata]
    · rw [hkeep.1, htemp, ← List.replicate_succ']
    · exact absurd (hrep.symm.trans hfalse) (by decide)

theorem compressByte_literal (h : Compressing seen s) (hrep : s.isRepeat = false) (c : Nat) :
    Compressing (seen ++ [c]) (compressByte s c) := by
  obtain ⟨hlt, hdiffer⟩ := h.differing hrep
  obtain ⟨runs, hbytes, hdata⟩ := h.runs
  rcases List.eq_nil_or_concat s.temp with hnil | ⟨t, b, htemp⟩
  · rw [compressByte_of_nil hnil]
    refine ⟨⟨runs, hbytes, ?_⟩, by simp [hrep], fun _ => singleton_differing⟩
    rw [← hdata, hnil, List.append_nil]
  · rw [List.concat_eq_append] at htemp
    have htlen : s.temp.length = t.length + 1 := by simp [htemp]
    have hlen : (s.temp ++ [c]).length = t.length + 2 := by simp [htemp]
    rw [compressByte_of_concat hrep htemp]
    split
    · rename_i hsame
      split
      · rename_i ht
        refine ⟨⟨runs, hbytes, ?_⟩, fun _ => ⟨2, c, by decide, by decide, rfl⟩, by simp⟩
        rw [← hdata, htemp, ht, hsame]
        simp
      · rename_i hne
        refine h.emit (.literal t ⟨hne, by omega⟩) rfl ?_ (fun _ => ⟨2, c, by decide, by decide, rfl⟩) (by simp)
        simp [htemp, Run.data, hsame]
    · rename_i hdiff
      split
      · rename_i hfull
        refine h.emit (.literal (s.temp ++ [c]) ⟨by simp, by omega⟩) rfl ?_ (by simp) fun _ => ⟨by simp, by simp⟩
        simp [Run.data]
      · rename_i hroom
        refine ⟨⟨runs, hbytes, ?_⟩, by simp [hrep], fun _ =>
          ⟨hlen.trans_lt (by omega), fun t' b' c' heq => ?_⟩⟩
        · rw [← List.append_assoc, hdata]
        · rw [htemp] at heq
          obtain ⟨hinit, hlast⟩ := List.append_inj' heq rfl
          obtain ⟨-, hb⟩ := List.append_inj' hinit rfl
          rw [← List.singleton_injective hb, ← List.singleton_injective hlast]
          exact Ne.symm hdiff

theorem compressByte_compressing (h : Compressing seen s) (c : Nat) :
    Compressing (seen ++ [c]) (compressByte s c) := by
  cases hrep : s.isRepeat with
  | true => exact compressByte_repeated h hrep c
  | false => exact compressByte_literal h hrep c

theorem foldl_compressByte (bytes : List Nat) : ∀ {seen : List Nat} {s : RleState}, Compressing seen s →
    Compressing (seen ++ bytes) (bytes.foldl compressByte s) := by
  induction bytes with
  | nil => simp
  | cons c bytes ih =>
    intro seen s h
    have hrest := ih (compressByte_compressing h c)
    rwa [List.append_assoc] at hrest

def leftOver (bytes : List Nat) : List Nat := (bytes.foldl compressByte ⟨[], [], false⟩).temp

/-- The compressed form is a sequence of runs that stand for the bytes, with an empty range behind it
where nothing was left over. -/
theorem compress_runs (bytes : List Nat) : ∃ runs : List Run,
    compressBytesQmkRle bytes = runs.flatMap Run.bytes ++ (if leftOver bytes = [] then rangeBytes [] else []) ∧
      runs.flatMap Run.data = bytes := by
  have hstart : Compressing [] ⟨[], [], false⟩ := ⟨⟨[], rfl, rfl⟩, by simp, by simp⟩
  have h := foldl_compressByte bytes hstart
  rw [List.nil_append] at h
  rw [compressBytesQmkRle, leftOver]
  generalize bytes.foldl compressByte ⟨[], [], false⟩ = s at h
  obtain ⟨runs, hbytes, hdata⟩ := h.runs
  cases hrep : s.isRepeat with
  | true =>
    obtain ⟨k, c, hk, hk', htemp⟩ := h.repeated hrep
    obtain ⟨k, rfl⟩ : ∃ j, k = j + 1 := ⟨k - 1, by omega⟩
    refine ⟨runs ++ [.repeated (k + 1) c ⟨by omega, hk'⟩], ?_, ?_⟩
    · simp [compressRound, hrep, htemp, hbytes, Run.bytes, List.replicate_succ]
    · simp [hdata, Run.data, ← htemp]
  | false =>
    obtain ⟨hlt, hdiffer⟩ := h.differing hrep
    have hnot : ¬ (2 ≤ s.temp.length ∧ fromEnd s.temp 1 = fromEnd s.temp 2) := by
      rintro ⟨hlen, hsame⟩
      rcases List.eq_nil_or_concat s.temp with hnil | ⟨t, c, htemp⟩
      · simp [hnil] at hlen
      · rcases List.eq_nil_or_concat t with rfl | ⟨t', b, rfl⟩
        · simp [htemp] at hlen
        · simp only [List.concat_eq_append] at htemp
          rw [htemp, fromEnd_one, fromEnd_two] at hsame
          exact hdiffer t' b c htemp hsame.symm
    have hround : (compressRound true s).output = s.output ++ rangeBytes s.temp := by
      rw [compressRound, if_neg (by simp [hrep]), if_neg hnot, if_pos (.inr rfl)]
    rw [hround, ← hbytes]
    by_cases hnil : s.temp = []
    · rw [if_pos hnil, hnil]
      exact ⟨runs, rfl, by rw [← hdata, hnil, List.append_nil]⟩
    · refine ⟨runs ++ [.literal s.temp ⟨hnil, by omega⟩], ?_, ?_⟩
      · simp [Run.bytes, hnil]
      · simpa [Run.data] using hdata

theorem ofInt_natCast (b : Nat) : UInt8.ofInt (b : Int) = UInt8.ofNat b := by
  rw [← UInt8.toNat_inj]
  simp [UInt8.ofInt]
  omega

theorem ofNat_succ_sub_one (n : Nat) : UInt8.ofNat (n + 1) - 1 = UInt8.ofNat n := by simp [UInt8.ofNat_add]

theorem ofNat_pos_iff {n : Nat} (hn : n < 256) : UInt8.ofNat n > 0 ↔ 0 < n := by
  rw [gt_iff_lt, UInt8.lt_iff_toNat_lt]
  simp [Nat.mod_eq_of_lt hn]

theorem rleDecoder_eq {b n : Nat} (hb : b < 256) (hn : n < 256) (hmode : state.mode ≠ .markerByte)
    (hcurr : state.curr = Int.ofNat b) (hremain : state.remain = UInt8.ofNat (n + 1)) :
    qpDrawimageByteRleDecoder state = (Int.ofNat b,
      if 0 < n then
        if state.mode = .nonRepeatingRun then
          { state with
            remain := UInt8.ofNat n
            curr := (qpStreamGet state.srcStream).1
            srcStream := (qpStreamGet state.srcStream).2 }
        else { state with remain := UInt8.ofNat n }
      else { state with remain := UInt8.ofNat n, mode := .markerByte }) := by
  have hbyte : (UInt8.ofNat b).toNat = b := by simp [Nat.mod_eq_of_lt hb]
  simp only [qpDrawimageByteRleDecoder, if_neg hmode, hcurr, hremain, ofNat_succ_sub_one, ofNat_pos_iff hn,
    Int.ofNat_eq_natCast, ofInt_natCast, hbyte]

/-- The stream is exhausted when it has ended and no run is begun. -/
def MoreToRead (state : ByteInputState) : Prop := ¬ (state.mode = .markerByte ∧ state.srcStream = [])

instance : DecidablePred MoreToRead := fun _ => inferInstanceAs (Decidable (¬ _))

theorem moreToRead_of_mode {state : ByteInputState} (hmode : state.mode ≠ .markerByte) : MoreToRead state :=
  fun hend => hmode hend.1

theorem repeatingRun_yields {c : Nat} (hc : c < 256) (n : Nat) (hn : n < 256) : ∀ state : ByteInputState,
    state.mode = .repeatingRun → state.curr = Int.ofNat c → state.remain = UInt8.ofNat (n + 1) →
      ∃ s', YieldsWhile qpDrawimageByteRleDecoder MoreToRead state ((List.replicate (n + 1) c).map Int.ofNat) s' ∧
        s'.mode = .markerByte ∧ s'.srcStream = state.srcStream := by
  induction n with
  | zero =>
    intro state hmode hcurr hremain
    have hread := rleDecoder_eq hc hn (by simp [hmode]) hcurr hremain
    rw [if_neg (by decide)] at hread
    exact ⟨_, ⟨moreToRead_of_mode (by simp [hmode]), by rw [hread], rfl⟩, by rw [hread], by rw [hread]⟩
  | succ n ih =>
    intro state hmode hcurr hremain
    have hread := rleDecoder_eq hc hn (by simp [hmode]) hcurr hremain
    rw [if_pos (Nat.succ_pos n), if_neg (by simp [hmode])] at hread
    obtain ⟨s', hyields, hend, hstream⟩ := ih (by omega) { state with remain := UInt8.ofNat (n + 1) } hmode hcurr rfl
    refine ⟨s', ⟨moreToRead_of_mode (by simp [hmode]), by rw [hread], ?_⟩, hend, hstream⟩
    rw [hread]
    exact hyields

theorem nonRepeatingRun_yields {rest : List UInt8} (bytes : List Nat) : ∀ (b : Nat) (state : ByteInputState),
    (∀ x ∈ b :: bytes, x < 256) → bytes.length < 256 → state.mode = .nonRepeatingRun →
    state.curr = Int.ofNat b → state.remain = UInt8.ofNat (bytes.length + 1) →
    state.srcStream = storedBytes bytes ++ rest →
      ∃ s', YieldsWhile qpDrawimageByteRleDecoder MoreToRead state ((b :: bytes).map Int.ofNat) s' ∧
        s'.mode = .markerByte ∧ s'.srcStream = rest := by
  induction bytes with
  | nil =>
    intro b state hbytes hlen hmode hcurr hremain hstream
    have hread := rleDecoder_eq (hbytes b (by simp)) hlen (by simp [hmode]) hcurr hremain
    rw [if_neg (by decide)] at hread
    exact ⟨_, ⟨moreToRead_of_mode (by simp [hmode]), by rw [hread], rfl⟩, by rw [hread], by rw [hread]; exact hstream⟩
  | cons b' bytes ih =>
    intro b state hbytes hlen hmode hcurr hremain hstream
    have hread := rleDecoder_eq (hbytes b (by simp)) hlen (by simp [hmode]) hcurr hremain
    have hb' : b' % 256 = b' := Nat.mod_eq_of_lt (hbytes b' (by simp))
    rw [if_pos (by simp), if_pos hmode] at hread
    have hget : qpStreamGet state.srcStream = (Int.ofNat b', storedBytes bytes ++ rest) := by
      rw [hstream]
      simp [storedBytes, qpStreamGet, hb']
    obtain ⟨s', hyields, hend, hrest⟩ := ih b' (qpDrawimageByteRleDecoder state).2
      (fun x hx => hbytes x (List.mem_cons_of_mem _ hx)) (by simp at hlen; omega)
      (by rw [hread]; exact hmode) (by rw [hread, hget]) (by rw [hread]; rfl) (by rw [hread, hget])
    exact ⟨s', ⟨moreToRead_of_mode (by simp [hmode]), by rw [hread], hyields⟩, hend, hrest⟩

/-- At a marker byte, with runs to come and a tail behind them. -/
def AtRuns (tail : List UInt8) (state : ByteInputState) (runs : List Run) : Prop :=
  state.mode = .markerByte ∧ (∀ run ∈ runs, ∀ b ∈ run.data, b < 256) ∧
    state.srcStream = storedBytes (runs.flatMap Run.bytes) ++ tail

theorem readMarker_eq {marker c : Nat} (rest : List UInt8) (hmarker : marker < 256) (hc : c < 256)
    (hstream : state.srcStream = UInt8.ofNat marker :: UInt8.ofNat c :: rest) : readMarker state =
      if 128 ≤ marker then ⟨rest, Int.ofNat c, .nonRepeatingRun, UInt8.ofNat (marker - 127)⟩
      else ⟨rest, Int.ofNat c, .repeatingRun, UInt8.ofNat marker⟩ := by
  have hm : marker % 256 = marker := Nat.mod_eq_of_lt hmarker
  have hge : UInt8.ofNat marker ≥ 128 ↔ 128 ≤ marker := by
    rw [ge_iff_le, UInt8.le_iff_toNat_le]
    simp [hm]
  simp only [readMarker, hstream, qpStreamGet, UInt8.toNat_ofNat', Nat.reducePow, hm, Nat.mod_eq_of_lt hc,
    ofInt_natCast, hge, Int.ofNat_eq_natCast]
  split
  · rename_i hle
    obtain ⟨k, rfl⟩ : ∃ k, marker = k + 127 := ⟨marker - 127, by omega⟩
    have hremain : UInt8.ofNat (k + 127) - 127 = UInt8.ofNat k := by
      rw [UInt8.ofNat_add]
      exact UInt8.add_sub_cancel _ _
    rw [hremain, Nat.add_sub_cancel]
  · rfl

theorem readMarker_read (hmode : state.mode = .markerByte) (hrun : (readMarker state).mode ≠ .markerByte) :
    qpDrawimageByteRleDecoder state = qpDrawimageByteRleDecoder (readMarker state) := by
  simp only [qpDrawimageByteRleDecoder, if_pos hmode, if_neg hrun]

theorem rleDecoder_run {tail : List UInt8} (state : ByteInputState) (run : Run) (runs : List Run)
    (h : AtRuns tail state (run :: runs)) :
    ∃ s', YieldsWhile qpDrawimageByteRleDecoder MoreToRead state (run.data.map Int.ofNat) s' ∧
      AtRuns tail s' runs := by
  obtain ⟨hmode, hbytes, hstream⟩ := h
  have hlater : ∀ run ∈ runs, ∀ b ∈ run.data, b < 256 := fun run hrun => hbytes run (List.mem_cons_of_mem _ hrun)
  have hrun : ∀ b ∈ run.data, b < 256 := hbytes run List.mem_cons_self
  cases run with
  | repeated count byte hcount =>
    obtain ⟨n, rfl⟩ : ∃ n, count = n + 1 := ⟨count - 1, by omega⟩
    have hbyte : byte < 256 := hrun byte (by simp [Run.data])
    have hstored : state.srcStream =
        UInt8.ofNat (n + 1) :: UInt8.ofNat byte :: (storedBytes (runs.flatMap Run.bytes) ++ tail) := by
      rw [hstream]
      simp [storedBytes, Run.bytes]
    have hmarker := readMarker_eq _ (by omega) hbyte hstored
    rw [if_neg (by omega)] at hmarker
    have hread := readMarker_read hmode (by simp [hmarker])
    obtain ⟨s', hyields, hend, hrest⟩ := repeatingRun_yields hbyte n (by omega) (readMarker state)
      (by rw [hmarker]) (by rw [hmarker]) (by rw [hmarker])
    rw [hmarker] at hrest
    refine ⟨s', ⟨fun hdone => ?_, ?_, ?_⟩, hend, hlater, hrest⟩
    · exact List.cons_ne_nil _ _ (hstored.symm.trans hdone.2)
    · rw [hread]
      exact hyields.2.1
    · rw [hread]
      exact hyields.2.2
  | literal bytes hlen =>
    cases bytes with
    | nil => exact absurd rfl hlen.1
    | cons b bytes =>
      have hlength : bytes.length + 1 ≤ 128 := hlen.2
      have hstored : state.srcStream = UInt8.ofNat (127 + (bytes.length + 1)) :: UInt8.ofNat b ::
          (storedBytes bytes ++ (storedBytes (runs.flatMap Run.bytes) ++ tail)) := by
        rw [hstream]
        simp [storedBytes, Run.bytes, rangeBytes]
      have hmarker := readMarker_eq _ (by omega) (hrun b (by simp [Run.data])) hstored
      rw [if_pos (by omega), Nat.add_sub_cancel_left] at hmarker
      have hread := readMarker_read hmode (by simp [hmarker])
      obtain ⟨s', hyields, hend, hrest⟩ := nonRepeatingRun_yields bytes b (readMarker state) hrun (by omega)
        (by rw [hmarker]) (by rw [hmarker]) (by rw [hmarker]) (by rw [hmarker])
      refine ⟨s', ⟨fun hdone => ?_, ?_, ?_⟩, hend, hlater, hrest⟩
      · exact List.cons_ne_nil _ _ (hstored.symm.trans hdone.2)
      · rw [hread]
        exact hyields.2.1
      · rw [hread]
        exact hyields.2.2

theorem runs_yield {runs : List Run} {bytes : List Nat} (hdata : runs.flatMap Run.data = bytes)
    (hbytes : ∀ b ∈ bytes, b < 256) {tail : List UInt8} (hmode : state.mode = .markerByte)
    (hstream : state.srcStream = storedBytes (runs.flatMap Run.bytes) ++ tail) :
    ∃ s', YieldsWhile qpDrawimageByteRleDecoder MoreToRead state (bytes.map Int.ofNat) s' ∧ AtRuns tail s' [] := by
  have hready : AtRuns tail state runs := by
    refine ⟨hmode, fun run hrun b hb => ?_, hstream⟩
    rw [← hdata] at hbytes
    exact hbytes b (List.mem_flatMap.mpr ⟨run, hrun, hb⟩)
  obtain ⟨s', hyields, hend⟩ := YieldsWhile.flatMap rleDecoder_run hready
  refine ⟨s', ?_, hend⟩
  rwa [← List.map_flatMap, hdata] at hyields

theorem rle_yields (bytes : List Nat) (hbytes : ∀ b ∈ bytes, b < 256) (state : ByteInputState)
    (hmode : state.mode = .markerByte) (hstream : state.srcStream = storedBytes (compressBytesQmkRle bytes)) :
    ∃ s', YieldsTo qpDrawimageByteRleDecoder state (bytes.map Int.ofNat) s' := by
  obtain ⟨runs, houtput, hdata⟩ := compress_runs bytes
  rw [houtput, storedBytes, List.map_append] at hstream
  obtain ⟨s', hyields, -⟩ := runs_yield hdata hbytes hmode hstream
  exact ⟨s', hyields.yieldsTo⟩

/-- What the decoder appends is what the converter was given, in order, from either storage format. -/
theorem painter_round_trip {bpp : Nat} (hbpp : bpp ∈ [1, 2, 4, 8]) (im : IndexedImage)
    (hvalid : ∀ p ∈ im.pixels, p < 2 ^ bpp) (pixelCount : UInt32) (hcount : pixelCount.toNat = im.pixels.length) :
    let bytes := convertImageBytes (2 ^ bpp) im
    (∃ s, qpInternalDecodePalette qpDrawimageByteUncompressedDecoder appendIndex pixelCount bpp
        (prepareInputState (storedBytes bytes)) [] = some (true, s, im.pixels.map UInt8.ofNat)) ∧
    (∃ s, qpInternalDecodePalette qpDrawimageByteRleDecoder appendIndex pixelCount bpp
        (prepareInputState (storedBytes (compressBytesQmkRle bytes))) [] =
      some (true, s, im.pixels.map UInt8.ofNat)) := by
  have hdiv : 0 < 8 / bpp ∧ bpp ≤ 8 ∧ 0 < bpp := by
    simp only [List.mem_cons, List.not_mem_nil, or_false] at hbpp
    rcases hbpp with rfl | rfl | rfl | rfl <;> decide
  obtain ⟨hper, hle, hpos⟩ := hdiv
  intro bytes
  have hpacked : bytes = packedBytes bpp im.pixels := convertImageBytes_packed hper hvalid
  have hlt : ∀ b ∈ bytes, b < 256 := hpacked ▸ packedBytes_lt hpos hvalid
  have hdecode : ∀ {read : ByteInputState → Int × ByteInputState} {s s' : ByteInputState},
      YieldsTo read s (bytes.map Int.ofNat) s' →
      qpInternalDecodePalette read appendIndex pixelCount bpp s [] = some (true, s', im.pixels.map UInt8.ofNat) := by
    intro read s s' hyields
    rw [hpacked] at hyields
    rw [qpInternalDecodePalette, hcount]
    exact decodeBytes_packed hper hle (Nat.le_refl _) hvalid hyields
  obtain ⟨s, hplain⟩ := uncompressed_yields bytes hlt (prepareInputState (storedBytes bytes)) rfl
  obtain ⟨s', hrle⟩ := rle_yields bytes hlt (prepareInputState (storedBytes (compressBytesQmkRle bytes))) rfl rfl
  exact ⟨⟨s, hdecode hplain⟩, ⟨s', hdecode hrle⟩⟩

/-- Three pixels of four colours: one byte, with padding behind. -/
def smallImage : IndexedImage := ⟨3, 1, [3, 0, 2], rfl⟩

theorem painter_round_trip_smallImage :
    (∃ s, qpInternalDecodePalette qpDrawimageByteUncompressedDecoder appendIndex 3 2
        (prepareInputState (storedBytes (convertImageBytes (2 ^ 2) smallImage))) [] = some (true, s, [3, 0, 2])) ∧
    (∃ s, qpInternalDecodePalette qpDrawimageByteRleDecoder appendIndex 3 2
        (prepareInputState (storedBytes (compressBytesQmkRle (convertImageBytes (2 ^ 2) smallImage)))) [] =
      some (true, s, [3, 0, 2])) :=
  @painter_round_trip 2 (by decide) smallImage (by decide) 3 rfl

end Painter
end VialQmk
