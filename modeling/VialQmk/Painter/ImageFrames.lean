import VialQmk.Painter.Image

/-!
# Painter.ImageFrames

What the validation of an image has checked when a frame is drawn.

* `storedFrame`: a frame by the bytes from its descriptor to the end of the file.
* `Accepted`: what those of a validated frame have.
* `ImageHandle.frames_accepted`: each frame of a validated image has them.
-/

namespace VialQmk
namespace Painter

open Lib

namespace Stream

variable {s : Stream}

theorem length_rest : s.rest.length = (s.length - s.position).toNat := by
  rw [rest, List.length_map, List.length_range]

theorem rest_of_end (h : s.length ≤ s.position) : s.rest = [] :=
  List.eq_nil_of_length_eq_zero (by rw [length_rest]; omega)

theorem rest_of_more (h : ¬ s.length ≤ s.position) :
    s.rest = s.buffer.getD s.position 0 :: ({ s with position := s.position + 1 } : Stream).rest := by
  obtain ⟨n, hn⟩ : ∃ n : Nat, (s.length - s.position).toNat = n + 1 := ⟨(s.length - s.position).toNat - 1, by omega⟩
  have hrest : (s.length - (s.position + 1 : Nat)).toNat = n := by omega
  rw [rest, rest, hn, hrest, List.range_succ_eq_map, List.map_cons, List.map_map, Nat.add_zero]
  refine congrArg _ (List.map_congr_left fun i _ => ?_)
  exact congrArg (s.buffer.getD · 0) (Nat.succ_add_eq_add_succ s.position i).symm

end Stream

theorem qpStreamReadBytes_rest (size : Nat) : ∀ s : Stream,
    (qpStreamReadBytes size s).1 = s.rest.take size ∧ (qpStreamReadBytes size s).2.rest = s.rest.drop size := by
  induction size with
  | zero => exact fun s => ⟨rfl, rfl⟩
  | succ size ih =>
    intro s
    rw [qpStreamReadBytes, memGet]
    by_cases hend : s.length ≤ s.position
    · rw [if_pos hend, Stream.rest_of_end hend]
      exact ⟨rfl, List.drop_nil.symm⟩
    · obtain ⟨hbytes, hrest⟩ := ih { s with position := s.position + 1 }
      rw [if_neg hend, Stream.rest_of_more hend, List.take_succ_cons, List.drop_succ_cons]
      exact ⟨congrArg _ hbytes, hrest⟩

theorem qpStreamRead_fst (size : Nat) (s : Stream) :
    (qpStreamRead size s).1 = if size ≤ s.rest.length then some (s.rest.take size) else none := by
  rw [qpStreamRead]
  dsimp only
  rw [(qpStreamReadBytes_rest size s).1, List.length_take]
  by_cases hle : size ≤ s.rest.length
  · rw [if_pos hle, if_pos (Nat.min_eq_left hle)]
  · rw [if_neg hle, if_neg (by omega)]

theorem qpStreamRead_rest (size : Nat) (s : Stream) : (qpStreamRead size s).2.rest = s.rest.drop size :=
  (qpStreamReadBytes_rest size s).2

variable {s s' : Stream}

theorem qpStreamRead_of_le {size : Nat} (h : size ≤ s.rest.length) :
    ∃ s', qpStreamRead size s = (some (s.rest.take size), s') ∧ s'.rest = s.rest.drop size := by
  have hread := qpStreamRead_fst size s
  rw [if_pos h] at hread
  exact ⟨_, Prod.ext hread rfl, qpStreamRead_rest size s⟩

theorem qpStreamRead_of_gt {size : Nat} (h : s.rest.length < size) : ∃ s', qpStreamRead size s = (none, s') := by
  have hread := qpStreamRead_fst size s
  rw [if_neg (Nat.not_le.mpr h)] at hread
  exact ⟨_, Prod.ext hread rfl⟩

theorem of_qpStreamRead {size : Nat} {bs : List UInt8} (h : qpStreamRead size s = (some bs, s')) :
    size ≤ s.rest.length ∧ bs = s.rest.take size ∧ s'.rest = s.rest.drop size := by
  by_cases hle : size ≤ s.rest.length
  · obtain ⟨s'', heq, hrest⟩ := qpStreamRead_of_le hle
    cases heq.symm.trans h
    exact ⟨hle, rfl, hrest⟩
  · obtain ⟨s'', heq⟩ := qpStreamRead_of_gt (Nat.not_le.mp hle)
    cases heq.symm.trans h

theorem qpStreamSkip_rest {offset : Nat} (hlt : offset < 2147483648) (s : Stream) :
    (qpStreamSkip offset s).2.rest = if offset ≤ s.rest.length then s.rest.drop offset else s.rest := by
  have hmove : ∀ n : Nat, ({ s with position := s.position + n } : Stream).rest = s.rest.drop n := by
    intro n
    induction n with
    | zero => rfl
    | succ n ih =>
      by_cases hend : s.length ≤ (s.position + n : Nat)
      · rw [Stream.rest_of_end (by dsimp only; omega), List.drop_eq_nil_of_le (by rw [Stream.length_rest]; omega)]
      · rw [← List.tail_drop, ← ih]
        exact (congrArg List.tail (Stream.rest_of_more (s := { s with position := s.position + n }) hend)).symm
  rw [qpStreamSkip, asInt32_of_lt hlt, memSeek]
  by_cases hle : offset ≤ s.rest.length
  · rw [if_pos hle]
    rw [Stream.length_rest] at hle
    split
    · rw [show offset = 0 by omega, List.drop_zero]
    · rw [← hmove offset]
      rfl
  · rw [if_neg hle]
    rw [Stream.length_rest] at hle
    rw [if_pos (by omega)]

theorem qgfReadGraphicsDescriptor_same (h : SameFile s s') (hlength : 0 ≤ s.length) :
    qgfReadGraphicsDescriptor s' = qgfReadGraphicsDescriptor s := by
  have hzero : ∀ t : Stream, 0 ≤ t.length → (qpStreamSetpos 0 t).2 = { t with position := 0 } := fun t ht =>
    congrArg Prod.snd (qpStreamSetpos_of_le (by decide) ht)
  have hsame : ({ s' with position := 0 } : Stream) = { s with position := 0 } := by
    rw [h.1, h.2]
  rw [qgfReadGraphicsDescriptor, qgfReadGraphicsDescriptor, hzero s hlength, hzero s' (by rw [h.2]; exact hlength),
    hsame]

theorem sameFile_qgfReadGraphicsDescriptor (s : Stream) : SameFile s (qgfReadGraphicsDescriptor s).2 := by
  have hread := (sameFile_memSeek (asInt32 0) s).trans (sameFile_qpStreamRead 23 (qpStreamSetpos 0 s).2)
  rw [qgfReadGraphicsDescriptor]
  split <;> rename_i heq <;> rw [heq] at hread <;> exact hread

theorem length_of_described {graphics : GraphicsDescriptor} (h : (qgfReadGraphicsDescriptor s).1 = some graphics) :
    0 ≤ s.length := by
  by_contra hneg
  have hempty : (qpStreamSetpos 0 s).2.rest = [] := by
    have hsame := sameFile_memSeek (asInt32 0) s
    exact Stream.rest_of_end (by rw [qpStreamSetpos, hsame.2]; omega)
  have hshort : (qpStreamSetpos 0 s).2.rest.length < 23 := by
    rw [hempty]
    decide
  obtain ⟨s', hread⟩ := qpStreamRead_of_gt hshort
  rw [qgfReadGraphicsDescriptor, hread] at h
  cases h

theorem qgfSeekToFrameDescriptor_same (h : SameFile s s') (hlength : 0 ≤ s.length) (k : Nat) :
    qgfSeekToFrameDescriptor k s' = qgfSeekToFrameDescriptor k s := by
  have hoffset : qgfReadFrameOffset k s' = qgfReadFrameOffset k s := by
    unfold qgfReadFrameOffset
    rw [qgfReadGraphicsDescriptor_same h hlength]
  rw [qgfSeekToFrameDescriptor_eq, qgfSeekToFrameDescriptor_eq, hoffset]

theorem sameFile_qgfSeekToFrameDescriptor (k : Nat) (s : Stream) : SameFile s (qgfSeekToFrameDescriptor k s) := by
  have hoffset : SameFile s (qgfReadFrameOffset k s).2 := by
    have hgraphics := sameFile_qgfReadGraphicsDescriptor s
    rw [qgfReadFrameOffset]
    split <;> rename_i heq <;> rw [heq] at hgraphics
    · exact hgraphics
    · rename_i s₁
      have hheader := hgraphics.trans (sameFile_qpStreamRead 5 s₁)
      split <;> rename_i heq' <;> rw [heq'] at hheader
      · exact hheader
      · rename_i s₂
        have hentry := hheader.trans ((sameFile_memSeek _ s₂).trans
          (sameFile_qpStreamRead 4 (qpStreamSkip (k * 4) s₂).2))
        split
        · exact hheader
        · split
          · exact hheader
          · split <;> rename_i heq'' <;> rw [heq''] at hentry <;> exact hentry
  rw [qgfSeekToFrameDescriptor_eq]
  exact hoffset.trans (sameFile_memSeek _ _)

/-- A frame by the bytes from its descriptor to the end of the file. -/
structure StoredFrame where
  format : Nat
  info : FrameInfo
  /-- Entries of a palette that are in the file. -/
  entries : Nat
  data : List UInt8

def storedPalette (info : FrameInfo) : Nat := if info.format.hasPalette = true then 5 + 2 ^ info.format.bpp * 3 else 0

def storedFrame (r : List UInt8) : StoredFrame :=
  let info := qgfParseFrameDescriptor (r.take 11) FrameInfo.zero
  let behind := r.drop (11 + storedPalette info)
  { format := field (r.take 11) 5 1
    info := if info.isDelta = true then info.setDelta (behind.take 13) else info
    entries := (r.length - 16) / 3
    data := (if info.isDelta = true then behind.drop 13 else behind).drop 5 }

def StoredFrame.WholePalette (f : StoredFrame) : Prop :=
  f.info.format.hasPalette = true → 2 ^ f.info.format.bpp ≤ f.entries

theorem format_setDelta (delta : List UInt8) (info : FrameInfo) : (info.setDelta delta).format = info.format := rfl

theorem storedFrame_format (r : List UInt8) :
    (storedFrame r).info.format = (qgfParseFrameDescriptor (r.take 11) FrameInfo.zero).format := by
  rw [storedFrame]
  dsimp only
  split
  · exact format_setDelta _ _
  · rfl

theorem parsed_format (format : Nat) :
    let info := (qgfParseFormat format).getD ⟨0, false, false⟩
    9 < format ∧ info = ⟨0, false, false⟩ ∨
      format ≤ 9 ∧ info.bpp ∈ [1, 2, 4, 8, 16, 24] ∧ (info.hasPalette = true → info.bpp ≤ 8) := by
  intro info
  by_cases hvalid : format ≤ 9
  · refine .inr ⟨hvalid, ?_⟩
    have htable : ∀ i ∈ formats, i.bpp ∈ [1, 2, 4, 8, 16, 24] ∧ (i.hasPalette = true → i.bpp ≤ 8) := by decide
    refine htable info ?_
    have hlt : format < formats.length := Nat.lt_succ_of_le hvalid
    have hget : qgfParseFormat format = some formats[format] := List.getElem?_eq_getElem hlt
    exact List.mem_of_getElem? (hget.trans (by rw [show info = formats[format] by simp [info, hget]]))
  · refine .inl ⟨Nat.not_le.mp hvalid, ?_⟩
    have hget : qgfParseFormat format = none := List.getElem?_eq_none (Nat.succ_le_of_lt (Nat.not_le.mp hvalid))
    simp [info, hget]

structure Accepted (r : List UInt8) : Prop where
  descriptor : 11 ≤ r.length
  palette : (storedFrame r).info.format.hasPalette = true → 16 ≤ r.length
  blocks : (storedFrame r).WholePalette →
    11 + storedPalette (storedFrame r).info + (if (storedFrame r).info.isDelta = true then 13 else 0) + 5 ≤ r.length

theorem of_qgfValidatePaletteDescriptor {bpp : Nat} (hbpp : bpp ≤ 8)
    (h : (qgfValidatePaletteDescriptor bpp s).1 = true) : 5 ≤ s.rest.length ∧
      (2 ^ bpp * 3 ≤ s.rest.length - 5 → (qgfValidatePaletteDescriptor bpp s).2.rest = s.rest.drop (5 + 2 ^ bpp * 3)) := by
  have hsmall : 2 ^ bpp ≤ 2 ^ 8 := Nat.pow_le_pow_right (by decide) hbpp
  cases hread : qpStreamRead 5 s with
  | mk desc s' =>
    rw [qgfValidatePaletteDescriptor, hread] at h ⊢
    cases desc with
    | none => cases h
    | some desc =>
      obtain ⟨hle, -, hrest⟩ := of_qpStreamRead hread
      refine ⟨hle, fun hentries => ?_⟩
      dsimp only at h ⊢
      split at h
      · rename_i hheader
        rw [if_pos hheader]
        dsimp only
        rw [qpStreamSkip_rest (by omega), hrest, List.length_drop, if_pos hentries, List.drop_drop]
      · cases h

theorem of_qgfValidateDeltaDescriptor (h : (qgfValidateDeltaDescriptor s).1 = true) :
    13 ≤ s.rest.length ∧ (qgfValidateDeltaDescriptor s).2.rest = s.rest.drop 13 := by
  cases hread : qpStreamRead 13 s with
  | mk desc s' =>
    rw [qgfValidateDeltaDescriptor, hread] at h ⊢
    cases desc with
    | none => cases h
    | some desc =>
      obtain ⟨hle, -, hrest⟩ := of_qpStreamRead hread
      exact ⟨hle, hrest⟩

theorem of_qgfValidateFrameDataDescriptor (h : (qgfValidateFrameDataDescriptor s).1 = true) : 5 ≤ s.rest.length := by
  cases hread : qpStreamRead 5 s with
  | mk desc s' =>
    rw [qgfValidateFrameDataDescriptor, hread] at h
    cases desc with
    | none => cases h
    | some desc => exact (of_qpStreamRead hread).1

theorem of_qgfValidateFrameDescriptor {k : Nat} {info : FrameInfo}
    (h : qgfValidateFrameDescriptor k s = (some info, s')) : 11 ≤ (qgfSeekToFrameDescriptor k s).rest.length ∧
      info = qgfParseFrameDescriptor ((qgfSeekToFrameDescriptor k s).rest.take 11) FrameInfo.zero ∧
      s'.rest = (qgfSeekToFrameDescriptor k s).rest.drop 11 := by
  unfold qgfValidateFrameDescriptor at h
  revert h
  generalize qgfSeekToFrameDescriptor k s = t
  intro h
  split at h
  · cases h
  · rename_i desc s₁ hread
    obtain ⟨hle, hdesc, hrest⟩ := of_qpStreamRead hread
    split at h
    · obtain ⟨hinfo, rfl⟩ := Prod.mk.inj h
      rw [hdesc] at hinfo
      exact ⟨hle, (Option.some.inj hinfo).symm, hrest⟩
    · cases h

theorem of_validated_blocks {info : FrameInfo}
    (h : (let (ok, s) := if info.isDelta = true then qgfValidateDeltaDescriptor s else (true, s)
      if ok = false then (false, s) else qgfValidateFrameDataDescriptor s).1 = true) :
    (if info.isDelta = true then 13 else 0) + 5 ≤ s.rest.length := by
  by_cases hdelta : info.isDelta = true
  · rw [if_pos hdelta] at h ⊢
    cases hvalid : (qgfValidateDeltaDescriptor s).1 with
    | false => simp [hvalid] at h
    | true =>
      obtain ⟨hle, hrest⟩ := of_qgfValidateDeltaDescriptor hvalid
      simp only [hvalid, Bool.true_eq_false, if_false] at h
      have hdata := of_qgfValidateFrameDataDescriptor h
      rw [hrest, List.length_drop] at hdata
      omega
  · rw [if_neg hdelta] at h ⊢
    rw [Nat.zero_add]
    exact of_qgfValidateFrameDataDescriptor h

theorem validateFrame_accepted {k : Nat} (h : (validateFrame k s).1 = true) :
    Accepted (qgfSeekToFrameDescriptor k s).rest := by
  unfold validateFrame at h
  generalize hvalid : qgfValidateFrameDescriptor k s = validated at h
  obtain ⟨_ | info, s₁⟩ := validated
  · cases h
  · obtain ⟨hle, hinfo, hrest⟩ := of_qgfValidateFrameDescriptor hvalid
    generalize (qgfSeekToFrameDescriptor k s).rest = r at hle hinfo hrest ⊢
    have hformat : (storedFrame r).info.format = info.format := by rw [storedFrame_format, hinfo]
    have hdelta : (storedFrame r).info.isDelta = info.isDelta := by
      rw [storedFrame, ← hinfo]
      dsimp only
      split <;> rfl
    have hbpp : info.format.hasPalette = true → info.format.bpp ≤ 8 := by
      intro hpalette
      have hparsed : info.format = (qgfParseFormat (field (r.take 11) 5 1)).getD ⟨0, false, false⟩ := by
        rw [hinfo]
        rfl
      obtain ⟨-, hnone⟩ | ⟨-, -, h8⟩ := parsed_format (field (r.take 11) 5 1)
      · rw [hparsed, hnone] at hpalette
        cases hpalette
      · rw [hparsed] at hpalette ⊢
        exact h8 hpalette
    dsimp only at h
    by_cases hpalette : info.format.hasPalette = true
    · rw [if_pos hpalette] at h
      cases hok : (qgfValidatePaletteDescriptor info.format.bpp s₁).1 with
      | false => simp [hok] at h
      | true =>
        obtain ⟨hheader, hentries⟩ := of_qgfValidatePaletteDescriptor (hbpp hpalette) hok
        simp only [hok, Bool.true_eq_false, if_false] at h
        have hblocks := of_validated_blocks h
        rw [hrest, List.length_drop] at hheader hentries
        refine ⟨hle, fun _ => by omega, fun hwhole => ?_⟩
        have hwhole' : 2 ^ info.format.bpp ≤ (r.length - 16) / 3 := hformat ▸ hwhole (hformat ▸ hpalette)
        rw [hentries (by omega), List.drop_drop, List.length_drop] at hblocks
        rw [storedPalette, hformat, hdelta, if_pos hpalette]
        omega
    · rw [if_neg hpalette] at h
      simp only [Bool.true_eq_false, if_false] at h
      have hblocks := of_validated_blocks h
      rw [hrest, List.length_drop] at hblocks
      refine ⟨hle, fun hp => absurd (hformat ▸ hp) hpalette, fun _ => ?_⟩
      rw [storedPalette, hformat, hdelta, if_neg hpalette]
      omega

theorem validateFrame_same (h : SameFile s s') (hlength : 0 ≤ s.length) (k : Nat) :
    validateFrame k s' = validateFrame k s := by
  unfold validateFrame qgfValidateFrameDescriptor
  rw [qgfSeekToFrameDescriptor_same h hlength]

section

variable {s : Stream}

theorem sameFile_of_read {α : Type} {size : Nat} {t : Stream} {f : List UInt8 → Stream → α × Stream} {a : α}
    (h : SameFile s t) (hf : ∀ desc t', SameFile s t' → SameFile s (f desc t').2) :
    SameFile s (match qpStreamRead size t with
      | (none, t) => (a, t)
      | (some desc, t) => f desc t).2 := by
  have hread := h.trans (sameFile_qpStreamRead size t)
  generalize qpStreamRead size t = result at hread ⊢
  obtain ⟨_ | desc, t'⟩ := result
  · exact hread
  · exact hf desc t' hread

theorem sameFile_qgfValidateFrameDescriptor (k : Nat) (s : Stream) :
    SameFile s (qgfValidateFrameDescriptor k s).2 := by
  have hseek := sameFile_qgfSeekToFrameDescriptor k s
  unfold qgfValidateFrameDescriptor
  generalize qgfSeekToFrameDescriptor k s = t at hseek ⊢
  refine sameFile_of_read hseek fun desc t ht => ?_
  split <;> exact ht

theorem sameFile_qgfValidatePaletteDescriptor (bpp : Nat) (s : Stream) :
    SameFile s (qgfValidatePaletteDescriptor bpp s).2 := by
  refine sameFile_of_read ⟨rfl, rfl⟩ fun desc t ht => ?_
  dsimp only
  split
  · exact ht.trans (sameFile_memSeek _ _)
  · exact ht

theorem sameFile_qgfValidateDeltaDescriptor (s : Stream) : SameFile s (qgfValidateDeltaDescriptor s).2 :=
  sameFile_of_read ⟨rfl, rfl⟩ fun _ _ ht => ht

theorem sameFile_qgfValidateFrameDataDescriptor (s : Stream) : SameFile s (qgfValidateFrameDataDescriptor s).2 :=
  sameFile_of_read ⟨rfl, rfl⟩ fun _ _ ht => ht

theorem sameFile_of_block {block rest : Stream → Bool × Stream} {c : Prop} [Decidable c]
    (hblock : ∀ t, SameFile t (block t).2) (hrest : ∀ t, SameFile t (rest t).2) (t : Stream) :
    SameFile t (let (ok, t) := if c then block t else (true, t)
      if ok = false then (false, t) else rest t).2 := by
  by_cases hc : c
  · rw [if_pos hc]
    cases hok : (block t).1 with
    | false => simpa [hok] using hblock t
    | true => simpa [hok] using (hblock t).trans (hrest _)
  · rw [if_neg hc]
    exact hrest t

theorem sameFile_validateFrame (k : Nat) (s : Stream) : SameFile s (validateFrame k s).2 := by
  have hdescriptor := sameFile_qgfValidateFrameDescriptor k s
  unfold validateFrame
  generalize qgfValidateFrameDescriptor k s = validated at hdescriptor ⊢
  obtain ⟨_ | info, s₁⟩ := validated
  · exact hdescriptor
  · exact hdescriptor.trans (sameFile_of_block (sameFile_qgfValidatePaletteDescriptor _)
      (sameFile_of_block sameFile_qgfValidateDeltaDescriptor sameFile_qgfValidateFrameDataDescriptor) s₁)

end

theorem validateFrames_each (n : Nat) : ∀ (i : Nat) (s : Stream), 0 ≤ s.length → (validateFrames n i s).1 = true →
    ∀ k < n, (validateFrame (i + k) s).1 = true := by
  induction n with
  | zero => exact fun _ _ _ _ k hk => absurd hk (Nat.not_lt_zero k)
  | succ n ih =>
    intro i s hlength h k hk
    have hsame := sameFile_validateFrame i s
    rw [validateFrames] at h
    generalize hframe : validateFrame i s = frame at hsame h
    obtain ⟨_ | _, s'⟩ := frame
    · cases h
    · cases k with
      | zero => exact congrArg Prod.fst hframe
      | succ k =>
        have hrest := ih (i + 1) s' (by rw [hsame.2]; exact hlength) h k (Nat.lt_of_succ_lt_succ hk)
        rw [validateFrame_same hsame hlength, Nat.succ_add_eq_add_succ] at hrest
        exact hrest

/-- The frames of an image that was loaded. -/
theorem ImageHandle.frames_accepted (image : ImageHandle) {k : Nat} (hk : k < image.frameCount) :
    Accepted (qgfSeekToFrameDescriptor k image.stream).rest := by
  obtain ⟨totalBytes, hdescribed⟩ := image.described
  have hlength := length_of_described hdescribed
  have hsame := sameFile_qgfReadGraphicsDescriptor image.stream
  have hvalid := image.validated
  unfold qgfValidateStream at hvalid
  generalize qgfReadGraphicsDescriptor image.stream = described at hdescribed hsame hvalid
  obtain ⟨graphics, s⟩ := described
  cases hdescribed
  have hframe := validateFrames_each _ 0 s (by rw [hsame.2]; exact hlength) hvalid k hk
  rw [validateFrame_same hsame hlength, Nat.zero_add] at hframe
  exact validateFrame_accepted hframe

/-- Two frames of two pixels with a palette. The second is a delta frame. -/
def twoFrames : ImageHandle where
  stream := qpMakeMemoryStream
    ([0x00, 0xFF, 18, 0, 0, 0x51, 0x47, 0x46, 1, 105, 0, 0, 0, 150, 255, 255, 255, 2, 0, 1, 0, 2, 0] ++
      [0x01, 0xFE, 8, 0, 0, 36, 0, 0, 0, 64, 0, 0, 0] ++
      ([0x02, 0xFD, 6, 0, 0, 4, 0, 0, 0, 0, 0] ++ [0x03, 0xFC, 6, 0, 0, 0, 0, 0, 85, 255, 255] ++
        [0x05, 0xFA, 1, 0, 0, 1]) ++
      ([0x02, 0xFD, 6, 0, 0, 4, 2, 0, 0, 0, 0] ++ [0x03, 0xFC, 6, 0, 0, 0, 0, 0, 85, 255, 255] ++
        [0x04, 0xFB, 8, 0, 0, 0, 0, 0, 0, 1, 0, 0, 0] ++ [0x05, 0xFA, 1, 0, 0, 2])) 105
  width := 2
  height := 1
  frameCount := 2
  validated := by decide +kernel
  described := ⟨105, by decide +kernel⟩

theorem frames_accepted_twoFrames :
    Accepted (qgfSeekToFrameDescriptor 0 twoFrames.stream).rest ∧
      Accepted (qgfSeekToFrameDescriptor 1 twoFrames.stream).rest ∧
      (storedFrame (qgfSeekToFrameDescriptor 1 twoFrames.stream).rest).info.isDelta = true ∧
      (storedFrame (qgfSeekToFrameDescriptor 1 twoFrames.stream).rest).info.format.hasPalette = true :=
  ⟨twoFrames.frames_accepted Nat.zero_lt_two, twoFrames.frames_accepted Nat.one_lt_two, by decide +kernel,
    by decide +kernel⟩

end Painter
end VialQmk
