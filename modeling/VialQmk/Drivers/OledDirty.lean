import VialQmk.Drivers.Oled
import VialQmk.Lib.Dirty

/-!
# Drivers.OledDirty

What `oled_dirty` says of `oled_buffer` in a run of the drawing functions.

* `Draws`: a change of the buffer that marks each block it changes. Every drawing function is one.
* `drawChar_room`: a glyph with room in front of the end of the buffer, and the cursor behind it.
* `write_room`, `write_no_room`: a text stays inside the buffer just where its first glyph does.
-/

namespace VialQmk
namespace Drivers

open Lib

namespace OledGeometry

variable {g : OledGeometry}

/-- A line and a block are as long as the code needs them to be. -/
structure Fits (g : OledGeometry) : Prop where
  matrixSize_lt : g.matrixSize < 2 ^ 16
  lines : g.rotationWidth ∣ g.matrixSize
  glyph_le_line : g.fontWidth ≤ g.rotationWidth
  glyph_le_blocks : g.fontWidth ≤ g.blockSize + 1
  pages : g.rotated → ¬ g.horizontalMode → g.numPages * g.columnsInBlock = g.blockSize

theorem blockSize_pos (g : OledGeometry) : 0 < g.blockSize := by
  have h := g.matrixSize_pos
  rw [← g.blocks] at h
  exact Nat.pos_of_mul_pos_left h

theorem div_blockSize_lt {index : Nat} (h : index < g.matrixSize) : index / g.blockSize < g.blockCount := by
  apply Nat.div_lt_of_lt_mul
  rwa [Nat.mul_comm, g.blocks]

theorem length_glyph (data : UInt8) : (g.glyph data).length = g.fontWidth := by
  rw [glyph]
  split <;> simp

theorem Fits.remaining_le (hg : g.Fits) {index : Nat} (h : index < g.matrixSize) :
    index + g.remaining index ≤ g.matrixSize := by
  obtain ⟨k, hk⟩ := hg.lines
  have hpos : 0 < g.rotationWidth := Nat.lt_of_lt_of_le g.fontWidth_pos hg.glyph_le_line
  have hq : index / g.rotationWidth < k := Nat.div_lt_of_lt_mul (hk ▸ h)
  have hmul := Nat.mul_le_mul_left g.rotationWidth hq
  have hdiv := Nat.div_add_mod index g.rotationWidth
  have hmod := Nat.mod_lt index hpos
  rw [Nat.mul_succ] at hmul
  rw [remaining, hk]
  omega

theorem Fits.room_behind_line (hg : g.Fits) {index : Nat} (h : index + g.remaining index < g.matrixSize) :
    index + g.remaining index + g.fontWidth ≤ g.matrixSize := by
  obtain ⟨k, hk⟩ := hg.lines
  have hpos : 0 < g.rotationWidth := Nat.lt_of_lt_of_le g.fontWidth_pos hg.glyph_le_line
  have hdiv := Nat.div_add_mod index g.rotationWidth
  have hmod := Nat.mod_lt index hpos
  have hline : index + g.remaining index = g.rotationWidth * (index / g.rotationWidth + 1) := by
    rw [remaining, Nat.mul_succ]
    omega
  rw [hline, hk] at h
  have hq : index / g.rotationWidth + 1 < k := Nat.lt_of_mul_lt_mul_left h
  have hmul := Nat.mul_le_mul_left g.rotationWidth hq
  rw [Nat.mul_succ] at hmul
  have hle := hg.glyph_le_line
  omega

theorem Fits.glyph_blocks (hg : g.Fits) {cursor index : Nat} (h : cursor ≤ index) (h' : index < cursor + g.fontWidth) :
    index / g.blockSize = cursor / g.blockSize ∨
      index / g.blockSize = (cursor + g.fontWidth - 1) / g.blockSize := by
  have hle := hg.glyph_le_blocks
  have hfirst := Nat.div_le_div_right (c := g.blockSize) h
  have hlast : index / g.blockSize ≤ (cursor + g.fontWidth - 1) / g.blockSize :=
    Nat.div_le_div_right (by omega)
  have hspan : (cursor + g.fontWidth - 1) / g.blockSize ≤ (cursor + g.blockSize) / g.blockSize :=
    Nat.div_le_div_right (by omega)
  rw [Nat.add_div_right cursor g.blockSize_pos] at hspan
  omega

end OledGeometry

namespace OledState

variable {g : OledGeometry} {s t r : OledState g}

def dirtyBlocks (g : OledGeometry) : Dirty (OledState g) (Fin g.blockCount) fun _ => Shown where
  value s i := ⟨s.block i, g.image (s.block i)⟩
  marked s i := s.dirty.getLsbD i

/-- The buffer changes in marked blocks only, and nothing is sent. -/
structure Draws (s t : OledState g) : Prop where
  tracks : (dirtyBlocks g).Tracks s t
  sent : t.sent = s.sent

theorem Draws.refl (s : OledState g) : Draws s s := ⟨.refl s, rfl⟩

theorem Draws.trans (h : Draws s t) (h' : Draws t r) : Draws s r :=
  ⟨h.tracks.trans h'.tracks, h'.sent.trans h.sent⟩

theorem Draws.moveTo (h : Draws s t) (index : Nat) : Draws s (t.moveTo index) :=
  ⟨⟨h.tracks.covers, h.tracks.agree⟩, h.sent⟩

theorem Draws.of_bytes (hdirty : ∀ i < g.blockCount, s.dirty.getLsbD i = true → t.dirty.getLsbD i = true)
    (hbytes : ∀ index < g.matrixSize, t.buffer index ≠ s.buffer index →
      t.dirty.getLsbD (index / g.blockSize) = true)
    (hsent : t.sent = s.sent) : Draws s t := by
  refine ⟨⟨fun i => hdirty i i.isLt, ?_⟩, hsent⟩
  intro i hi
  have hblock : s.block i = t.block i := by
    apply Mem.readBlock_congr
    intro k hk
    by_contra hne
    have hlt : g.blockSize * i + k < g.matrixSize := by
      have hmul := Nat.mul_le_mul_left g.blockSize i.isLt
      rw [Nat.mul_comm _ g.blockCount, g.blocks, Nat.mul_succ] at hmul
      exact Nat.lt_of_lt_of_le (Nat.add_lt_add_left hk _) hmul
    have hdiv : (g.blockSize * i + k) / g.blockSize = i := by
      rw [Nat.mul_add_div g.blockSize_pos, Nat.div_eq_of_lt hk, Nat.add_zero]
    have hmark := hbytes _ hlt (Ne.symm hne)
    rw [hdiv] at hmark
    exact Bool.false_ne_true (hi.symm.trans hmark)
  simp only [dirtyBlocks, hblock]

theorem getLsbD_mark {index i : Nat} (hi : i < g.blockCount) :
    (s.mark index).dirty.getLsbD i = (s.dirty.getLsbD i || decide (i = index / g.blockSize)) := by
  rw [mark, BitVec.getLsbD_or, g.getLsbD_blockBit (Nat.lt_of_lt_of_le hi g.blockCount_le)]

theorem store_of_le {index : Nat} {bytes : List UInt8} (h : index + bytes.length ≤ g.matrixSize) :
    s.store index bytes = some { s with buffer := s.buffer.writeBlock index bytes } := if_pos h

theorem store_of_lt {index : Nat} {bytes : List UInt8} (h : g.matrixSize < index + bytes.length) :
    s.store index bytes = none := if_neg (Nat.not_le_of_lt h)

theorem putByte_draws {index : Nat} (h : index < g.matrixSize) (data : UInt8) :
    ∃ t, s.putByte index data = some t ∧ Draws s t ∧ t.cursor = s.cursor := by
  rw [putByte]
  split
  · exact ⟨s, rfl, .refl s, rfl⟩
  · rw [store_of_le h]
    refine ⟨_, rfl, .of_bytes ?_ ?_ rfl, rfl⟩
    · intro i hi hs
      rw [getLsbD_mark hi]
      simp [hs]
    · intro i hi hne
      rw [getLsbD_mark (g.div_blockSize_lt hi)]
      have hindex : i = index := by
        by_contra hni
        exact hne (Function.update_of_ne hni _ _)
      simp [hindex]

theorem putByte_outside {data : UInt8} (h : s.buffer g.matrixSize ≠ data) :
    s.putByte g.matrixSize data = none := by
  rw [putByte, if_neg h, store_of_lt (by simp)]
  rfl

def Room (s : OledState g) : Prop := s.cursor + g.fontWidth ≤ g.matrixSize

theorem Room.cursor_lt (h : Room s) : s.cursor < g.matrixSize :=
  Nat.lt_of_lt_of_le (Nat.lt_add_of_pos_right g.fontWidth_pos) h

theorem moveTo_room (hg : g.Fits) {index : Nat} (h : index < g.matrixSize → index + g.fontWidth ≤ g.matrixSize) :
    Room (s.moveTo index) := by
  simp only [Room, moveTo]
  split
  · have hle : g.rotationWidth ≤ g.matrixSize := Nat.le_of_dvd g.matrixSize_pos hg.lines
    have hline := hg.glyph_le_line
    omega
  · rename_i hin
    exact h (Nat.lt_of_not_le hin)

theorem advanceChar_room (hg : g.Fits) (h : Room s) : Room s.oledAdvanceChar := by
  have hnext : u16 (s.cursor + g.fontWidth) = s.cursor + g.fontWidth :=
    Nat.mod_eq_of_lt (Nat.lt_of_le_of_lt h hg.matrixSize_lt)
  rw [oledAdvanceChar, hnext]
  apply moveTo_room hg
  intro hin
  split at hin
  · -- The next glyph starts a line, and there is one unless the buffer ends here.
    rename_i hshort
    rw [if_pos hshort]
    have hend : s.cursor + g.fontWidth < g.matrixSize := by
      refine Nat.lt_of_le_of_ne h fun heq => ?_
      have hline := hg.glyph_le_line
      rw [OledGeometry.remaining, heq, Nat.mod_eq_zero_of_dvd hg.lines] at hshort
      omega
    have hle := hg.remaining_le hend
    rw [u16, Nat.mod_eq_of_lt (Nat.lt_of_le_of_lt hle hg.matrixSize_lt)] at hin ⊢
    exact hg.room_behind_line hin
  · rename_i hlong
    rw [if_neg hlong]
    have hle := hg.remaining_le hin
    omega

theorem glyph_written (h : Room s) (data : UInt8) (invert : Bool) :
    ∃ m, ((s.store s.cursor (g.glyph data)).bind fun s => if invert then s.invertCharacter else some s) =
        some { s with buffer := m } ∧
      ∀ i, i < s.cursor ∨ s.cursor + g.fontWidth ≤ i → m i = s.buffer i := by
  have hout : ∀ {m : Mem UInt8} {bytes : List UInt8} {i : Nat}, bytes.length = g.fontWidth →
      (i < s.cursor ∨ s.cursor + g.fontWidth ≤ i) → m.writeBlock s.cursor bytes i = m i := by
    intro m bytes i hlength hi
    cases hi with
    | inl hi => exact Mem.writeBlock_of_lt bytes m s.cursor hi
    | inr hi => exact Mem.writeBlock_of_ge (hlength ▸ hi)
  have hglyph := g.length_glyph data
  rw [store_of_le (by rw [hglyph]; exact h), Option.bind_some]
  cases invert with
  | false => exact ⟨_, rfl, fun i hi => hout hglyph hi⟩
  | true =>
    simp only [if_true, invertCharacter]
    rw [store_of_le (by rw [List.length_map, Mem.readBlock_length]; exact h)]
    exact ⟨_, rfl, fun i hi => (hout (by simp) hi).trans (hout hglyph hi)⟩

theorem drawChar_room (hg : g.Fits) (h : Room s) (data : UInt8) (invert : Bool) :
    ∃ t, s.drawChar data invert = some t ∧ Draws s t ∧ Room t := by
  obtain ⟨m, hm, hout⟩ := glyph_written h data invert
  have hdraw : Draws s
      (if s.buffer.readBlock s.cursor g.fontWidth = m.readBlock s.cursor g.fontWidth then { s with buffer := m }
        else ({ s with buffer := m } : OledState g).mark s.cursor |>.mark (s.cursor + g.fontWidth - 1)) := by
    split
    · -- The glyph is the one that was there.
      rename_i hsame
      refine .of_bytes (fun _ _ hi => hi) ?_ rfl
      intro i _ hne
      by_cases hi : i < s.cursor ∨ s.cursor + g.fontWidth ≤ i
      · exact absurd (hout i hi) hne
      · obtain ⟨k, rfl⟩ := Nat.exists_eq_add_of_le (Nat.le_of_not_lt fun hlt => hi (.inl hlt))
        exact absurd (Mem.readBlock_inj hsame k (by omega)).symm hne
    · refine .of_bytes ?_ ?_ rfl
      · intro i hi hs
        rw [getLsbD_mark hi, getLsbD_mark hi]
        simp [hs]
      · intro i hi hne
        have hin : s.cursor ≤ i ∧ i < s.cursor + g.fontWidth := by
          by_contra hnot
          exact hne (hout i (by omega))
        rw [getLsbD_mark (g.div_blockSize_lt hi), getLsbD_mark (g.div_blockSize_lt hi)]
        rcases hg.glyph_blocks hin.1 hin.2 with hfirst | hlast
        · simp [hfirst]
        · simp [hlast]
  have hcursor : ∀ t : OledState g, t.cursor = s.cursor → Room t.oledAdvanceChar := fun t ht =>
    advanceChar_room hg (by rw [Room, ht]; exact h)
  refine ⟨_, Option.map_bind.symm.trans (congrArg (Option.map _) hm), hdraw.moveTo _, hcursor _ ?_⟩
  split <;> rfl

theorem drawChar_no_room (h : ¬ Room s) (data : UInt8) (invert : Bool) : s.drawChar data invert = none := by
  rw [drawChar, store_of_lt]
  · rfl
  · rw [g.length_glyph]
    exact Nat.lt_of_not_le h

theorem writeSpaces_room (hg : g.Fits) (n : Nat) (h : Room s) :
    ∃ t, writeSpaces n s = some t ∧ Draws s t ∧ Room t := by
  induction n generalizing s with
  | zero => exact ⟨s, rfl, .refl s, h⟩
  | succ n ih =>
    obtain ⟨r, hr, hsr, hroom⟩ := drawChar_room hg h 32 false
    obtain ⟨t, ht, hrt, htroom⟩ := ih hroom
    refine ⟨t, ?_, hsr.trans hrt, htroom⟩
    rw [writeSpaces, hr]
    exact ht

theorem advancePage_room (hg : g.Fits) (h : Room s) :
    ∃ t, s.oledAdvancePage true = some t ∧ Draws s t ∧ Room t := writeSpaces_room hg _ h

theorem advancePage_no_room (hg : g.Fits) (hcursor : s.cursor < g.matrixSize) (h : ¬ Room s) :
    s.oledAdvancePage true = some s := by
  have hle := hg.remaining_le hcursor
  have hlt : g.remaining s.cursor < g.fontWidth := by
    rw [Room] at h
    omega
  simp [oledAdvancePage, Nat.div_eq_of_lt hlt, writeSpaces]

theorem advancePage_keep (hg : g.Fits) (hcursor : s.cursor < g.matrixSize) :
    ∃ t, s.oledAdvancePage false = some t ∧ Draws s t ∧ Room t := by
  have hle := hg.remaining_le hcursor
  have hwidth : 2 ^ 16 ≤ 2 ^ g.intWidth := Nat.pow_le_pow_right (by omega) g.intWidth_ge
  have hsum : g.sum s.cursor (g.remaining s.cursor) = s.cursor + g.remaining s.cursor :=
    Nat.mod_eq_of_lt (Nat.lt_of_lt_of_le (Nat.lt_of_le_of_lt hle hg.matrixSize_lt) hwidth)
  refine ⟨_, rfl, (Draws.refl s).moveTo _, ?_⟩
  rw [hsum]
  exact moveTo_room hg hg.room_behind_line

/-- The first glyph of a text, if it is on the line of the cursor, has room there. -/
def HasRoom (s : OledState g) : List UInt8 → Prop
  | [] => True
  | c :: data => if c = newline then HasRoom s data else c = carriageReturn ∨ Room s

theorem Room.hasRoom (h : Room s) (data : List UInt8) : HasRoom s data := by
  induction data with
  | nil => exact trivial
  | cons c data ih =>
    rw [HasRoom]
    split
    · exact ih
    · exact .inr h

theorem write_room (hg : g.Fits) (invert : Bool) (data : List UInt8) (hcursor : s.cursor < g.matrixSize)
    (h : HasRoom s data) : ∃ t, oledWrite invert data s = some t ∧ Draws s t ∧ t.cursor < g.matrixSize := by
  induction data generalizing s with
  | nil => exact ⟨s, rfl, .refl s, hcursor⟩
  | cons c data ih =>
    have hthen : (∃ r, s.oledWriteChar c invert = some r ∧ Draws s r ∧ Room r) →
        ∃ t, oledWrite invert (c :: data) s = some t ∧ Draws s t ∧ t.cursor < g.matrixSize := by
      rintro ⟨r, hr, hsr, hroom⟩
      obtain ⟨t, ht, hrt, hlt⟩ := ih hroom.cursor_lt (hroom.hasRoom data)
      refine ⟨t, ?_, hsr.trans hrt, hlt⟩
      rw [oledWrite, hr]
      exact ht
    rw [HasRoom] at h
    by_cases hn : c = newline
    · rw [if_pos hn] at h
      by_cases hroom : Room s
      · apply hthen
        rw [oledWriteChar, if_pos hn]
        exact advancePage_room hg hroom
      · rw [oledWrite, oledWriteChar, if_pos hn, advancePage_no_room hg hcursor hroom]
        exact ih hcursor h
    · rw [if_neg hn] at h
      apply hthen
      rw [oledWriteChar, if_neg hn]
      by_cases hc : c = carriageReturn
      · rw [if_pos hc]
        exact advancePage_keep hg hcursor
      · rw [if_neg hc]
        exact drawChar_room hg (h.resolve_left hc) c invert

theorem write_no_room (hg : g.Fits) (invert : Bool) (data : List UInt8) (hcursor : s.cursor < g.matrixSize)
    (h : ¬ HasRoom s data) : oledWrite invert data s = none := by
  induction data with
  | nil => exact absurd trivial h
  | cons c data ih =>
    rw [HasRoom] at h
    rw [oledWrite, oledWriteChar]
    by_cases hn : c = newline
    · rw [if_pos hn] at h ⊢
      have hroom : ¬ Room s := fun hroom => h (hroom.hasRoom data)
      rw [advancePage_no_room hg hcursor hroom]
      exact ih h
    · rw [if_neg hn, not_or] at h
      rw [if_neg hn, if_neg h.1, drawChar_no_room h.2]
      rfl

theorem advancePage_draws (hg : g.Fits) (hcursor : s.cursor < g.matrixSize) (clearPageRemainder : Bool) :
    ∃ t, s.oledAdvancePage clearPageRemainder = some t ∧ Draws s t ∧ t.cursor < g.matrixSize := by
  cases clearPageRemainder with
  | false =>
    obtain ⟨t, ht, hst, hroom⟩ := advancePage_keep hg hcursor
    exact ⟨t, ht, hst, hroom.cursor_lt⟩
  | true =>
    by_cases hroom : Room s
    · obtain ⟨t, ht, hst, htroom⟩ := advancePage_room hg hroom
      exact ⟨t, ht, hst, htroom.cursor_lt⟩
    · exact ⟨s, advancePage_no_room hg hcursor hroom, .refl s, hcursor⟩

theorem writeRawLoop_draws (data : Nat → UInt8) (n i : Nat) (h : i + n ≤ g.matrixSize) :
    ∃ t, writeRawLoop data n i s = some t ∧ Draws s t ∧ t.cursor = s.cursor := by
  induction n generalizing data i s with
  | zero => exact ⟨s, rfl, .refl s, rfl⟩
  | succ n ih =>
    obtain ⟨r, hr, hsr, hcursor⟩ := @putByte_draws g s i (by omega) (data 0)
    obtain ⟨t, ht, hrt, htcursor⟩ := ih (s := r) (fun k => data (k + 1)) (i + 1) (by omega)
    refine ⟨t, ?_, hsr.trans hrt, htcursor.trans hcursor⟩
    rw [writeRawLoop, hr]
    exact ht

theorem writeRaw_draws (hg : g.Fits) (hcursor : s.cursor < g.matrixSize) (data : Nat → UInt8) (size : UInt16) :
    ∃ t, s.oledWriteRaw data size = some t ∧ Draws s t ∧ t.cursor = s.cursor := by
  apply writeRawLoop_draws
  split
  · have hwidth : 2 ^ 16 ≤ 2 ^ g.intWidth := Nat.pow_le_pow_right (by omega) g.intWidth_ge
    have hend : g.sum s.cursor (g.matrixSize - s.cursor) = g.matrixSize := by
      rw [OledGeometry.sum, Nat.add_sub_cancel' (Nat.le_of_lt hcursor)]
      exact Nat.mod_eq_of_lt (Nat.lt_of_lt_of_le hg.matrixSize_lt hwidth)
    omega
  · rename_i hsum
    rw [OledGeometry.sum, Nat.add_comm] at hsum
    rw [OledGeometry.sum]
    omega

theorem writePixel_draws (x y : UInt8) (on : Bool) :
    ∃ t, s.oledWritePixel x y on = some t ∧ Draws s t ∧ t.cursor = s.cursor := by
  rw [oledWritePixel]
  split
  · exact ⟨s, rfl, .refl s, rfl⟩
  · dsimp only
    split
    · exact ⟨s, rfl, .refl s, rfl⟩
    · rename_i hin
      exact putByte_draws (Nat.lt_of_not_le hin) _

theorem panRow_kept (left : Bool) {y : Nat} (hy : y < g.displayHeight / 8) (xs : List Nat)
    (hxs : ∀ x ∈ xs, x < g.displayWidth) :
    ∃ t, panRow left y xs s = some t ∧ t.cursor = s.cursor ∧ t.sent = s.sent := by
  induction xs generalizing s with
  | nil => exact ⟨s, rfl, rfl, rfl⟩
  | cons x xs ih =>
    obtain ⟨hx, hxs⟩ := List.forall_mem_cons.mp hxs
    have hin : y * g.displayWidth + x < g.matrixSize := by
      have hmul := Nat.mul_le_mul_right g.displayWidth hy
      rw [Nat.succ_mul] at hmul
      exact Nat.lt_of_lt_of_le (Nat.add_lt_add_left hx _) hmul
    rw [panRow, store_of_le hin]
    exact ih hxs

theorem panColumns_lt (left : Bool) : ∀ x ∈ panColumns g left, x < g.displayWidth := by
  intro x hx
  cases left with
  | false =>
    simp only [panColumns, Bool.false_eq_true, if_false, List.mem_reverse, List.mem_map, List.mem_range] at hx
    obtain ⟨x', hlt, rfl⟩ := hx
    omega
  | true =>
    simp only [panColumns, if_true, List.mem_range] at hx
    omega

theorem panRows_kept (left : Bool) (ys : List Nat) (hys : ∀ y ∈ ys, y < g.displayHeight / 8) :
    ∃ t, panRows left ys s = some t ∧ t.cursor = s.cursor ∧ t.sent = s.sent := by
  induction ys generalizing s with
  | nil => exact ⟨s, rfl, rfl, rfl⟩
  | cons y ys ih =>
    obtain ⟨hy, hys⟩ := List.forall_mem_cons.mp hys
    obtain ⟨r, hr, hcursor, hsent⟩ := panRow_kept (s := s) left hy (panColumns g left) (panColumns_lt left)
    obtain ⟨t, ht, htcursor, htsent⟩ := ih (s := r) hys
    refine ⟨t, ?_, htcursor.trans hcursor, htsent.trans hsent⟩
    rw [panRows, hr]
    exact ht

theorem Draws.of_all (hdirty : t.dirty = g.allBlocksMask) (hsent : t.sent = s.sent) : Draws s t := by
  refine .of_bytes ?_ ?_ hsent
  · intro i hi _
    simp [hdirty, g.getLsbD_allBlocksMask, hi]
  · intro i hi _
    simp [hdirty, g.getLsbD_allBlocksMask, g.div_blockSize_lt hi]

theorem pan_draws (left : Bool) : ∃ t, s.oledPan left = some t ∧ Draws s t ∧ t.cursor = s.cursor := by
  obtain ⟨r, hr, hcursor, hsent⟩ := panRows_kept (s := s) left (List.range (g.displayHeight / 8))
    fun y hy => List.mem_range.mp hy
  refine ⟨{ r with dirty := g.allBlocksMask }, ?_, .of_all rfl hsent, hcursor⟩
  rw [oledPan, hr]
  rfl

end OledState

end Drivers
end VialQmk
