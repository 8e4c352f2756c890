import VialQmk.Painter.RoundTrip

/-!
# Painter.Truncated

Pixel data that end before the last pixel.

* `unpack`: the bytes that a compressed stream determines, wherever it is cut.
* `Reported`: the decoder answers that it failed, and has passed on no other pixels than those.
* `truncated_reported_iff`: the compressed streams are not reported, unless the driver fails before the cut.
-/

namespace VialQmk
namespace Painter

open Lib

inductive Compression where
  | imageUncompressed | imageCompressedRle
  deriving DecidableEq, Repr

def Compression.inputCallback : Compression → ByteInputState → Int × ByteInputState
  | imageUncompressed => qpDrawimageByteUncompressedDecoder
  | imageCompressedRle => qpDrawimageByteRleDecoder

/-- A marker of 0 stands for 256 repetitions: the count is decremented before it is looked at. -/
def unpack : List UInt8 → List UInt8
  | [] => []
  | [_] => []
  | marker :: b :: rest =>
    if 128 ≤ marker then b :: rest.take (marker.toNat - 128) ++ unpack (rest.drop (marker.toNat - 128))
    else List.replicate (if marker = 0 then 256 else marker.toNat) b ++ unpack rest
  termination_by stream => stream.length
  decreasing_by all_goals simp only [List.length_cons, List.length_drop]; omega

def Compression.data : Compression → List UInt8 → List UInt8
  | imageUncompressed, stream => stream
  | imageCompressedRle, stream => unpack stream

def pixelsOfByte (bpp : Nat) : Nat → Nat → List UInt8
  | 0, _ => []
  | q + 1, byteval => UInt8.ofNat (byteval &&& ((1 <<< bpp - 1) % 256)) :: pixelsOfByte bpp q (byteval >>> bpp)

def pixelsOf (bpp : Nat) (bytes : List UInt8) : List UInt8 :=
  bytes.flatMap fun b => pixelsOfByte bpp (8 / bpp) b.toNat

section Driver

variable {ok : List UInt8 → Bool}

/-- `qp_internal_pixel_appender`, for a driver whose answer depends on the pixels so far, the new one included. -/
def appendPixel (ok : List UInt8 → Bool) (index : UInt8) (passed : List UInt8) : Bool × List UInt8 :=
  (ok (passed ++ [index]), passed ++ [index])

def offer (ok : List UInt8 → Bool) : List UInt8 → List UInt8 → Bool × List UInt8
  | [], passed => (true, passed)
  | p :: ps, passed => if ok (passed ++ [p]) = true then offer ok ps (passed ++ [p]) else (false, passed ++ [p])

theorem offer_append (ps qs : List UInt8) (passed : List UInt8) :
    offer ok (ps ++ qs) passed =
      if (offer ok ps passed).1 = true then offer ok qs (offer ok ps passed).2 else offer ok ps passed := by
  induction ps generalizing passed with
  | nil => rfl
  | cons p ps ih =>
    rw [List.cons_append, offer, offer]
    split
    · exact ih _
    · rfl

theorem offer_passed (ok : List UInt8 → Bool) (ps passed : List UInt8) :
    ∃ ps' qs, ps = ps' ++ qs ∧ (offer ok ps passed).2 = passed ++ ps' ∧ ((offer ok ps passed).1 = true → qs = []) := by
  induction ps generalizing passed with
  | nil => exact ⟨[], [], rfl, (List.append_nil _).symm, fun _ => rfl⟩
  | cons p ps ih =>
    rw [offer]
    split
    · obtain ⟨ps', qs, hps, hpassed, hall⟩ := ih (passed ++ [p])
      refine ⟨p :: ps', qs, by rw [hps, List.cons_append], ?_, hall⟩
      rw [hpassed, List.append_assoc, List.singleton_append]
    · exact ⟨[p], ps, rfl, rfl, fun h => absurd h Bool.false_ne_true⟩

theorem offer_fails_iff (ok : List UInt8 → Bool) (ps passed : List UInt8) :
    (offer ok ps passed).1 = false ↔ ∃ n < ps.length, ok (passed ++ ps.take (n + 1)) = false := by
  induction ps generalizing passed with
  | nil => exact ⟨fun h => Bool.noConfusion h, fun h => absurd h.choose_spec.1 (Nat.not_lt_zero _)⟩
  | cons p ps ih =>
    rw [offer]
    split
    · rename_i hok
      rw [ih]
      constructor
      · rintro ⟨n, hn, hfail⟩
        refine ⟨n + 1, Nat.succ_lt_succ hn, ?_⟩
        rw [List.take_succ_cons, ← List.singleton_append, ← List.append_assoc]
        exact hfail
      · rintro ⟨n, hn, hfail⟩
        cases n with
        | zero => exact absurd (hok.symm.trans hfail) (by decide)
        | succ n =>
          refine ⟨n, Nat.lt_of_succ_lt_succ hn, ?_⟩
          rw [List.append_assoc]
          exact hfail
    · rename_i hfail
      exact ⟨fun _ => ⟨0, Nat.succ_pos _, (Bool.not_eq_true _).mp hfail⟩, fun _ => rfl⟩

theorem decodePixels_offer (bpp q : Nat) (byteval : Nat) (passed : List UInt8) :
    decodePixels (appendPixel ok) bpp q byteval passed = offer ok (pixelsOfByte bpp q byteval) passed := by
  induction q generalizing byteval passed with
  | zero => rfl
  | succ q ih =>
    rw [decodePixels, pixelsOfByte, offer]
    simp only [appendPixel, ih]

end Driver

section Loop

variable {σ : Type} {inputCallback : σ → Int × σ} {ok : List UInt8 → Bool} {bpp : Nat}

theorem decodeBytes_round {rounds remaining : Nat} {s : σ} {passed : List UInt8} (hremaining : remaining ≠ 0)
    (hread : ¬ (inputCallback s).1 < 0) :
    decodeBytes inputCallback (appendPixel ok) bpp (rounds + 1) remaining s passed =
      (let pixels := pixelsOfByte bpp (min remaining (8 / bpp)) (inputCallback s).1.toNat
      if (offer ok pixels passed).1 = true then
        decodeBytes inputCallback (appendPixel ok) bpp rounds (remaining - min remaining (8 / bpp)) (inputCallback s).2
          (offer ok pixels passed).2
      else some (false, (inputCallback s).2, (offer ok pixels passed).2)) := by
  have hmin : (if remaining < 8 / bpp then remaining else 8 / bpp) = min remaining (8 / bpp) := by
    split <;> omega
  rw [decodeBytes, if_neg hremaining]
  simp only [if_neg hread, hmin, decodePixels_offer]

theorem decodeBytes_yields (hper : 0 < 8 / bpp) {bytes : List UInt8} :
    ∀ {rounds remaining : Nat} {s s' : σ} (passed : List UInt8), remaining ≤ rounds →
      8 / bpp * bytes.length < remaining →
      YieldsTo inputCallback s (bytes.map fun b => Int.ofNat b.toNat) s' →
      ∃ s'', decodeBytes inputCallback (appendPixel ok) bpp rounds remaining s passed =
        if (offer ok (pixelsOf bpp bytes) passed).1 = true then
          decodeBytes inputCallback (appendPixel ok) bpp (rounds - bytes.length) (remaining - 8 / bpp * bytes.length) s'
            (offer ok (pixelsOf bpp bytes) passed).2
        else some (false, s'', (offer ok (pixelsOf bpp bytes) passed).2) := by
  induction bytes with
  | nil =>
    intro rounds remaining s s' passed _ _ hyields
    cases hyields
    exact ⟨s, rfl⟩
  | cons b bytes ih =>
    intro rounds remaining s s' passed hrounds hmore hyields
    obtain ⟨hread, hrest⟩ := hyields
    rw [List.length_cons, Nat.mul_succ] at hmore ⊢
    obtain ⟨rounds, rfl⟩ := Nat.exists_eq_succ_of_ne_zero (by omega : rounds ≠ 0)
    have hmin : min remaining (8 / bpp) = 8 / bpp := Nat.min_eq_right (by omega)
    have hbyte : (inputCallback s).1.toNat = b.toNat := by rw [hread]; rfl
    rw [decodeBytes_round (by omega) (by rw [hread]; simp), hmin, hbyte, pixelsOf, List.flatMap_cons, offer_append]
    dsimp only
    split
    · obtain ⟨s'', heq⟩ := ih (offer ok (pixelsOfByte bpp (8 / bpp) b.toNat) passed).2
        (by omega : remaining - 8 / bpp ≤ rounds) (by omega) hrest
      refine ⟨s'', heq.trans ?_⟩
      rw [Nat.succ_eq_add_one, Nat.add_sub_add_right, Nat.sub_sub, Nat.add_comm (8 / bpp)]
      rfl
    · exact ⟨_, rfl⟩

theorem decodeBytes_passed (rounds : Nat) : ∀ {remaining : Nat} {s s' : σ} {passed passed' : List UInt8} {r : Bool},
    decodeBytes inputCallback (appendPixel ok) bpp rounds remaining s passed = some (r, s', passed') →
      passed <+: passed' := by
  induction rounds with
  | zero =>
    intro remaining s s' passed passed' r h
    rw [decodeBytes] at h
    split at h
    · cases h
      exact List.prefix_refl _
    · cases h
  | succ rounds ih =>
    intro remaining s s' passed passed' r h
    by_cases hdone : remaining = 0
    · rw [decodeBytes, if_pos hdone] at h
      cases h
      exact List.prefix_refl _
    · by_cases hread : (inputCallback s).1 < 0
      · rw [decodeBytes, if_neg hdone] at h
        simp only [if_pos hread] at h
        cases h
        exact List.prefix_refl _
      · rw [decodeBytes_round hdone hread] at h
        dsimp only at h
        obtain ⟨ps', qs, -, hpassed, -⟩ := offer_passed ok
          (pixelsOfByte bpp (min remaining (8 / bpp)) (inputCallback s).1.toNat) passed
        split at h
        · have hrest := ih h
          rw [hpassed] at hrest
          exact (List.prefix_append _ _).trans hrest
        · cases h
          rw [hpassed]
          exact List.prefix_append _ _

theorem decodeBytes_appends (hper : 0 < 8 / bpp) {rounds remaining : Nat} {s s' : σ} {passed passed' : List UInt8}
    {r : Bool} (hremaining : remaining ≠ 0) (hread : ¬ (inputCallback s).1 < 0)
    (h : decodeBytes inputCallback (appendPixel ok) bpp rounds remaining s passed = some (r, s', passed')) :
    passed.length < passed'.length := by
  cases rounds with
  | zero =>
    rw [decodeBytes, if_neg hremaining] at h
    cases h
  | succ rounds =>
    obtain ⟨k, hk⟩ := Nat.exists_eq_succ_of_ne_zero (by omega : min remaining (8 / bpp) ≠ 0)
    rw [decodeBytes_round hremaining hread, hk, pixelsOfByte] at h
    dsimp only at h
    have hfirst : ∀ p ps, passed.length < (offer ok (p :: ps) passed).2.length := by
      intro p ps
      rw [offer]
      split
      · obtain ⟨ps', qs, -, hpassed, -⟩ := offer_passed ok ps (passed ++ [p])
        rw [hpassed, List.length_append, List.length_append, List.length_singleton]
        omega
      · rw [List.length_append, List.length_singleton]
        omega
    split at h
    · exact Nat.lt_of_lt_of_le (hfirst _ _) (decodeBytes_passed rounds h).length_le
    · cases h
      exact hfirst _ _

end Loop

theorem uncompressed_yields_all (stream : List UInt8) : ∀ state : ByteInputState, state.srcStream = stream →
    ∃ s', YieldsTo qpDrawimageByteUncompressedDecoder state (stream.map fun b => Int.ofNat b.toNat) s' ∧
      s'.srcStream = [] := by
  induction stream with
  | nil => exact fun state hstream => ⟨state, rfl, hstream⟩
  | cons b stream ih =>
    intro state hstream
    obtain ⟨s', hyields, hend⟩ := ih (qpDrawimageByteUncompressedDecoder state).2 (by
      simp [qpDrawimageByteUncompressedDecoder, hstream, qpStreamGet])
    exact ⟨s', ⟨by simp [qpDrawimageByteUncompressedDecoder, hstream, qpStreamGet], hyields⟩, hend⟩

theorem rleDecoder_not_neg (state : ByteInputState) : ¬ (qpDrawimageByteRleDecoder state).1 < 0 := by
  rw [qpDrawimageByteRleDecoder]
  exact Int.not_lt.mpr (Int.natCast_nonneg _)

theorem literal_yields (n : Nat) (hn : n < 256) : ∀ (b : UInt8) (state : ByteInputState),
    state.mode = .nonRepeatingRun → state.curr = Int.ofNat b.toNat → state.remain = UInt8.ofNat (n + 1) →
      ∃ s', YieldsTo qpDrawimageByteRleDecoder state
        ((b :: state.srcStream.take n).map fun b => Int.ofNat b.toNat) s' ∧
        (n ≤ state.srcStream.length → s'.mode = .markerByte ∧ s'.srcStream = state.srcStream.drop n) := by
  induction n with
  | zero =>
    intro b state hmode hcurr hremain
    have hread := rleDecoder_eq b.toNat_lt hn (by simp [hmode]) hcurr hremain
    rw [if_neg (by decide)] at hread
    exact ⟨_, ⟨by rw [hread], rfl⟩, fun _ => ⟨by rw [hread], by rw [hread]; rfl⟩⟩
  | succ n ih =>
    intro b state hmode hcurr hremain
    have hread := rleDecoder_eq b.toNat_lt hn (by simp [hmode]) hcurr hremain
    rw [if_pos (Nat.succ_pos n), if_pos hmode] at hread
    cases hstream : state.srcStream with
    | nil => exact ⟨_, ⟨by rw [hread], rfl⟩, fun hle => absurd hle (by simp)⟩
    | cons b' rest =>
      have hget : qpStreamGet state.srcStream = (Int.ofNat b'.toNat, rest) := by rw [hstream]; rfl
      rw [hget] at hread
      obtain ⟨s', hyields, hend⟩ := ih (by omega) b' (qpDrawimageByteRleDecoder state).2 (by rw [hread]; exact hmode)
        (by rw [hread]) (by rw [hread])
      rw [hread] at hyields hend
      refine ⟨s', ⟨by rw [hread], ?_⟩, fun hle => hend (Nat.le_of_succ_le_succ hle)⟩
      rw [hread]
      exact hyields

theorem rle_yields_unpack (stream : List UInt8) : ∀ state : ByteInputState, state.mode = .markerByte →
    state.srcStream = stream →
      ∃ s', YieldsTo qpDrawimageByteRleDecoder state ((unpack stream).map fun b => Int.ofNat b.toNat) s' := by
  fun_induction unpack stream with
  | case1 => exact fun state _ _ => ⟨state, rfl⟩
  | case2 => exact fun state _ _ => ⟨state, rfl⟩
  | case3 marker b rest hliteral ih =>
    intro state hmode hstream
    have hle : 128 ≤ marker.toNat := UInt8.le_iff_toNat_le.mp hliteral
    have hread := readMarker_eq rest marker.toNat_lt b.toNat_lt (by rw [hstream]; simp)
    rw [if_pos hle] at hread
    have hsame := readMarker_read hmode (by simp [hread])
    have hcount : marker.toNat - 127 = marker.toNat - 128 + 1 := by omega
    have hlt := marker.toNat_lt
    have hsrc : (readMarker state).srcStream = rest := by rw [hread]
    obtain ⟨s₁, hfirst, hend⟩ := literal_yields (marker.toNat - 128) (by omega) b (readMarker state)
      (by rw [hread]) (by rw [hread]) (by rw [hread, hcount])
    rw [hsrc] at hfirst hend
    have hrun : YieldsTo qpDrawimageByteRleDecoder state
        ((b :: rest.take (marker.toNat - 128)).map fun b => Int.ofNat b.toNat) s₁ := by
      rw [List.map_cons, yieldsTo_cons] at hfirst ⊢
      rwa [hsame]
    rw [List.map_append]
    by_cases hcut : rest.length < marker.toNat - 128
    · rw [List.drop_eq_nil_of_le (Nat.le_of_lt hcut), unpack]
      exact ⟨s₁, hrun.append rfl⟩
    · obtain ⟨hmarker, hrest⟩ := hend (Nat.not_lt.mp hcut)
      obtain ⟨s', hyields⟩ := ih s₁ hmarker hrest
      exact ⟨s', hrun.append hyields⟩
  | case4 marker b rest hrepeated ih =>
    intro state hmode hstream
    have hle : ¬ 128 ≤ marker.toNat := fun h => hrepeated (UInt8.le_iff_toNat_le.mpr h)
    have hread := readMarker_eq rest marker.toNat_lt b.toNat_lt (by rw [hstream]; simp)
    rw [if_neg hle] at hread
    have hsame := readMarker_read hmode (by simp [hread])
    obtain ⟨n, hn, hcount, hremain⟩ : ∃ n < 256, (if marker = 0 then 256 else marker.toNat) = n + 1 ∧
        UInt8.ofNat marker.toNat = UInt8.ofNat (n + 1) := by
      by_cases hzero : marker = 0
      · exact ⟨255, by decide, if_pos hzero, by rw [hzero]; decide⟩
      · have hpos : marker.toNat ≠ 0 := fun h => hzero (UInt8.toNat.inj h)
        exact ⟨marker.toNat - 1, by omega, by rw [if_neg hzero]; omega, congrArg _ (by omega)⟩
    obtain ⟨s₁, hfirst, hmarker, hrest⟩ := repeatingRun_yields b.toNat_lt n hn (readMarker state)
      (by rw [hread]) (by rw [hread]) (by rw [hread]; exact hremain)
    rw [hread] at hrest
    obtain ⟨s', hyields⟩ := ih s₁ hmarker hrest
    rw [hcount, List.map_append, List.map_replicate]
    refine ⟨s', YieldsTo.append ?_ hyields⟩
    have hrun := hfirst.yieldsTo
    rw [List.map_replicate, List.replicate_succ, yieldsTo_cons] at hrun
    rw [List.replicate_succ, yieldsTo_cons]
    rwa [hsame]

/-- The answer is that it failed, and no pixel was passed on that the bytes do not determine. -/
def Reported (result : Option (Bool × ByteInputState × List UInt8)) (determined : List UInt8) : Prop :=
  ∃ s passed, result = some (false, s, passed) ∧ passed <+: determined

/-- Where fewer bytes are there than the pixels need, this is reported exactly for the uncompressed streams, and for
the compressed ones if the driver fails before the cut. -/
theorem truncated_reported_iff {bpp : Nat} (hbpp : bpp ∈ [1, 2, 4, 8]) (compression : Compression)
    (ok : List UInt8 → Bool) (stream : List UInt8) (pixelCount : UInt32)
    (hcut : 8 / bpp * (compression.data stream).length < pixelCount.toNat) :
    let determined := pixelsOf bpp (compression.data stream)
    Reported (qpInternalDecodePalette compression.inputCallback (appendPixel ok) pixelCount bpp
        (prepareInputState stream) []) determined ↔
      compression = .imageUncompressed ∨ ∃ n < determined.length, ok (determined.take (n + 1)) = false := by
  intro determined
  have hper : 0 < 8 / bpp := by
    simp only [List.mem_cons, List.not_mem_nil, or_false] at hbpp
    rcases hbpp with rfl | rfl | rfl | rfl <;> decide
  have hfails := offer_fails_iff ok determined []
  simp only [List.nil_append] at hfails
  obtain ⟨ps', qs, hsplit, hpassed, hall⟩ := offer_passed ok determined []
  rw [List.nil_append] at hpassed
  have hprefix : (offer ok determined []).2 <+: determined := by
    rw [hpassed, hsplit]
    exact List.prefix_append _ _
  rw [← hfails, qpInternalDecodePalette]
  cases compression with
  | imageUncompressed =>
    obtain ⟨s', hyields, hend⟩ := uncompressed_yields_all stream (prepareInputState stream) rfl
    obtain ⟨s'', heq⟩ := decodeBytes_yields hper [] (Nat.le_refl _) hcut hyields
    refine ⟨fun _ => .inl rfl, fun _ => ?_⟩
    rw [Compression.inputCallback, heq]
    split
    · have hbytes := Nat.le_mul_of_pos_left (Compression.imageUncompressed.data stream).length hper
      obtain ⟨rounds, hrounds⟩ := Nat.exists_eq_succ_of_ne_zero (Nat.sub_ne_zero_of_lt (hbytes.trans_lt hcut))
      have hread : (qpDrawimageByteUncompressedDecoder s').1 < 0 := by
        simp [qpDrawimageByteUncompressedDecoder, hend, qpStreamGet]
      rw [hrounds, decodeBytes, if_neg (Nat.sub_ne_zero_of_lt hcut)]
      simp only [if_pos hread]
      exact ⟨_, _, rfl, hprefix⟩
    · exact ⟨_, _, rfl, hprefix⟩
  | imageCompressedRle =>
    obtain ⟨s', hyields⟩ := rle_yields_unpack stream (prepareInputState stream) rfl rfl
    obtain ⟨s'', heq⟩ := decodeBytes_yields hper [] (Nat.le_refl _) hcut hyields
    rw [Compression.inputCallback, heq]
    by_cases hoffer : (offer ok determined []).1 = true
    · rw [if_pos hoffer]
      constructor
      · rintro ⟨s, passed, hresult, hle⟩
        have hmore := decodeBytes_appends hper (Nat.sub_ne_zero_of_lt hcut) (rleDecoder_not_neg s') hresult
        have hlong : (offer ok determined []).2 = determined := by
          rw [hpassed, hsplit, hall hoffer, List.append_nil]
        exact absurd hle.length_le (Nat.not_le.mpr (hlong ▸ hmore))
      · rintro (h | h)
        · cases h
        · exact absurd (hoffer.symm.trans h) (by decide)
    · rw [if_neg hoffer]
      exact ⟨fun _ => .inr ((Bool.not_eq_true _).mp hoffer), fun _ => ⟨_, _, rfl, hprefix⟩⟩

/-- A byte is missing behind an uncompressed one. -/
theorem truncated_reported_plain :
    8 / 8 * [(5 : UInt8)].length < (2 : UInt32).toNat ∧
      (Reported (qpInternalDecodePalette qpDrawimageByteUncompressedDecoder (appendPixel fun _ => true) 2 8
          (prepareInputState [5]) []) (pixelsOf 8 [5]) ↔
        Compression.imageUncompressed = .imageUncompressed ∨
          ∃ n < (pixelsOf 8 [5]).length, (fun _ => true) ((pixelsOf 8 [5]).take (n + 1)) = false) :=
  ⟨by decide, truncated_reported_iff (by decide) .imageUncompressed (fun _ => true) [5] 2 (by decide)⟩

/-- Three pixels of colour 7 are stored as the marker 3 and the byte 7. Without the byte, three pixels of colour 255 are
appended. -/
theorem truncated_run_decodes :
    storedBytes (compressBytesQmkRle [7, 7, 7]) = [3, 7] ∧
      (∃ s, qpInternalDecodePalette qpDrawimageByteRleDecoder (appendPixel fun _ => true) 3 8
        (prepareInputState [3]) [] = some (true, s, [255, 255, 255])) ∧
      ¬ Reported (qpInternalDecodePalette qpDrawimageByteRleDecoder (appendPixel fun _ => true) 3 8
        (prepareInputState [3]) []) (pixelsOf 8 (Compression.imageCompressedRle.data [3])) := by
  have hdecodes : ∃ s, qpInternalDecodePalette qpDrawimageByteRleDecoder (appendPixel fun _ => true) 3 8
      (prepareInputState [3]) [] = some (true, s, [255, 255, 255]) := ⟨_, rfl⟩
  refine ⟨by decide, hdecodes, ?_⟩
  rintro ⟨s, passed, hresult, -⟩
  obtain ⟨s', htrue⟩ := hdecodes
  cases htrue.symm.trans hresult

end Painter
end VialQmk
