import VialQmk.Drivers.OledDirty

/-!
# Drivers.OledRuns

The display under the drawing functions and `oled_render_dirty`, where sends may fail.

* `Tracked`: the cursor is inside the buffer, and a block without a mark is as it was sent last.
* `renderLoop_tracked`: rendering finds each dirty block, and takes the mark of a block that was sent.
* `oled_run_tracked_iff`: a run stays inside the buffer, with that, just where each glyph and each raw byte has room.
-/

namespace VialQmk
namespace Drivers

open Lib

namespace OledGeometry

variable {g : OledGeometry}

theorem length_rotateBlock (block : List UInt8) : (g.rotateBlock block).length = g.blockSize :=
  Mem.readBlock_length _ _ _

theorem flatten_pages (data : List UInt8) (c n : Nat) :
    ((List.range n).map fun i => (data.drop (c * i)).take c).flatten = data.take (n * c) := by
  induction n with
  | zero => simp
  | succ n ih =>
    rw [List.range_succ, List.map_append, List.flatten_append, ih, Nat.succ_mul, List.take_add]
    simp [Nat.mul_comm c n]

theorem Fits.flatten_pieces (hg : g.Fits) (block : List UInt8) : (g.pieces block).flatten = g.image block := by
  rw [pieces]
  split
  · rename_i h
    have hlength : (g.image block).length = g.numPages * g.columnsInBlock := by
      rw [image, if_pos h.1, length_rotateBlock, hg.pages h.1 h.2]
    rw [flatten_pages, ← hlength, List.take_length]
  · simp

end OledGeometry

namespace OledState

variable {g : OledGeometry} {s t : OledState g}

structure Tracked (s : OledState g) : Prop where
  cursor_lt : s.cursor < g.matrixSize
  shown : ∀ i < g.blockCount, s.dirty.getLsbD i = false → s.sent i = some ⟨s.block i, g.image (s.block i)⟩

theorem Tracked.shownIn (h : Tracked s) : (dirtyBlocks g).ShownIn s fun i => s.sent i :=
  fun i hi => h.shown i i.isLt hi

theorem Tracked.of_shownIn (hcursor : s.cursor < g.matrixSize) (h : (dirtyBlocks g).ShownIn s fun i => s.sent i) :
    Tracked s := ⟨hcursor, fun i hi => h ⟨i, hi⟩⟩

theorem Tracked.draws (h : Tracked s) (hd : Draws s t) (hcursor : t.cursor < g.matrixSize) : Tracked t := by
  refine .of_shownIn hcursor ?_
  rw [hd.sent]
  exact h.shownIn.change hd.tracks

theorem nextDirty_first {w : Nat} {dirty : BitVec w} {start : Nat} (hne : dirty ≠ 0)
    (hstart : ∀ i, dirty.getLsbD i = true → start ≤ i) :
    ∃ n, nextDirty dirty start = some n ∧ dirty.getLsbD n = true ∧ ∀ i, dirty.getLsbD i = true → n ≤ i := by
  fun_induction nextDirty dirty start with
  | case1 start hbit => exact ⟨start, rfl, hbit, hstart⟩
  | case2 start hbit hlt ih =>
    apply ih
    intro i hi
    refine Nat.lt_of_le_of_ne (hstart i hi) ?_
    rintro rfl
    exact hbit hi
  | case3 start hbit hge =>
    refine absurd (BitVec.eq_of_getLsbD_eq fun i hi => ?_) hne
    cases hb : dirty.getLsbD i with
    | false => simp
    | true => exact absurd (Nat.lt_of_le_of_lt (hstart i hb) hi) hge

theorem getLsbD_rendered {n i : Nat} :
    (s.rendered n).dirty.getLsbD i = (s.dirty.getLsbD i && !decide (i = n)) := by
  by_cases hi : i < g.blockBits
  · rw [rendered, BitVec.getLsbD_and, BitVec.getLsbD_not, g.getLsbD_blockBit hi]
    simp [hi]
  · simp [rendered, BitVec.getLsbD_of_ge _ _ (Nat.le_of_not_lt hi)]

theorem rendered_tracked (hg : g.Fits) (h : Tracked s) {n : Nat} (hn : n < g.blockCount) : Tracked (s.rendered n) := by
  refine .of_shownIn h.cursor_lt ?_
  have hkeep : ∀ i : Fin g.blockCount, i ≠ ⟨n, hn⟩ →
      (dirtyBlocks g).marked (s.rendered n) i = (dirtyBlocks g).marked s i := by
    intro i hi
    have hne : (i : Nat) ≠ n := fun heq => hi (Fin.ext heq)
    show (s.rendered n).dirty.getLsbD i = s.dirty.getLsbD i
    simp [getLsbD_rendered, hne]
  have hsent : (fun i : Fin g.blockCount => (s.rendered n).sent i) =
      Function.update (fun i : Fin g.blockCount => s.sent i) ⟨n, hn⟩
        (some ((dirtyBlocks g).value s ⟨n, hn⟩)) := by
    simp only [rendered, hg.flatten_pieces]
    exact Function.update_comp_eq_of_injective s.sent (fun _ _ => Fin.ext) ⟨n, hn⟩ _
  rw [hsent]
  exact h.shownIn.send ⟨n, hn⟩ rfl hkeep

/-- The dirty blocks are those of the buffer, from `start` on. -/
structure DirtyFrom (s : OledState g) (start : Nat) : Prop where
  start_le : ∀ i, s.dirty.getLsbD i = true → start ≤ i
  lt : ∀ i, s.dirty.getLsbD i = true → i < g.blockCount

theorem DirtyFrom.rendered {start n : Nat} (h : DirtyFrom s start) (hn : ∀ i, s.dirty.getLsbD i = true → n ≤ i) :
    DirtyFrom (s.rendered n) n := by
  have hdirty : ∀ i, (s.rendered n).dirty.getLsbD i = true → s.dirty.getLsbD i = true := by
    intro i hi
    rw [getLsbD_rendered, Bool.and_eq_true] at hi
    exact hi.1
  exact ⟨fun i hi => hn i (hdirty i hi), fun i hi => h.lt i (hdirty i hi)⟩

theorem renderLoop_tracked (hg : g.Fits) (all : Bool) (start numProcessed good : Nat) (h : Tracked s)
    (hdirty : DirtyFrom s start) : ∃ t, renderLoop all s start numProcessed good = some t ∧ Tracked t := by
  fun_induction renderLoop all s start numProcessed good with
  | case1 s start _ _ hgo hnext =>
    obtain ⟨n, hn, -, -⟩ := nextDirty_first hgo.1 hdirty.start_le
    rw [hnext] at hn
    cases hn
  | case2 s start numProcessed good hgo n hnext hsend => exact ⟨s, rfl, h⟩
  | case3 s start numProcessed good hgo n hnext good' hsend ih =>
    obtain ⟨m, hm, hbit, hfirst⟩ := nextDirty_first hgo.1 hdirty.start_le
    rw [hnext] at hm
    cases hm
    exact ih (rendered_tracked hg h (hdirty.lt n hbit)) (hdirty.rendered hfirst)
  | case4 s => exact ⟨s, rfl, h⟩

theorem renderDirty_tracked (hg : g.Fits) (all onSent : Bool) (good : Nat) (h : Tracked s) :
    ∃ t, s.oledRenderDirty all onSent good = some t ∧ Tracked t := by
  have hmask : ∀ i, (s.dirty &&& g.allBlocksMask).getLsbD i = true → i < g.blockCount := by
    intro i hi
    rw [BitVec.getLsbD_and, g.getLsbD_allBlocksMask, Bool.and_eq_true] at hi
    exact of_decide_eq_true hi.2
  have hshown : ∀ i < g.blockCount, (s.dirty &&& g.allBlocksMask).getLsbD i = false →
      s.sent i = some ⟨s.block i, g.image (s.block i)⟩ := by
    intro i hi hclean
    simp only [BitVec.getLsbD_and, g.getLsbD_allBlocksMask, hi, decide_true, Bool.and_true] at hclean
    exact h.shown i hi hclean
  rw [oledRenderDirty]
  dsimp only
  split
  · exact ⟨_, rfl, h.cursor_lt, hshown⟩
  · rename_i hgo
    have hon : ({ s with dirty := s.dirty &&& g.allBlocksMask } : OledState g).oledOn onSent =
        { s with dirty := s.dirty &&& g.allBlocksMask, active := s.active || onSent } := by
      rw [oledOn, if_pos]
      by_contra hinit
      exact hgo (.inr (.inl hinit))
    rw [hon]
    exact renderLoop_tracked hg all 0 0 good ⟨h.cursor_lt, hshown⟩ ⟨fun i _ => Nat.zero_le i, hmask⟩

/-- Where a call writes, as far as the code does not look after it. -/
def Inside (s : OledState g) : OledCall → Prop
  | .writeChar data _ => HasRoom s [data]
  | .write data _ => HasRoom s data
  | .writeLn data _ => HasRoom s data
  | .writeRawByte data index => index.toNat < g.matrixSize ∨ s.buffer g.matrixSize = data
  | _ => True

theorem clear_tracked (s : OledState g) : Tracked s.oledClear := by
  refine ⟨g.matrixSize_pos, fun i hi hclean => ?_⟩
  simp [oledClear, g.getLsbD_allBlocksMask, hi] at hclean

theorem setCursor_tracked (h : Tracked s) (col line : UInt8) : Tracked (s.oledSetCursor col line) := by
  refine h.draws ((Draws.refl s).moveTo _) ?_
  simp only [oledSetCursor, moveTo]
  split
  · exact g.matrixSize_pos
  · rename_i hin
    exact Nat.lt_of_not_le hin

theorem write_singleton (s : OledState g) (data : UInt8) (invert : Bool) :
    oledWrite invert [data] s = s.oledWriteChar data invert := by
  cases h : s.oledWriteChar data invert <;> simp [oledWrite, h]

theorem writeLn_draws (hg : g.Fits) (hcursor : s.cursor < g.matrixSize) (data : List UInt8) (invert : Bool)
    (h : HasRoom s data) : ∃ t, s.oledWriteLn data invert = some t ∧ Draws s t ∧ t.cursor < g.matrixSize := by
  obtain ⟨r, hr, hsr, hrcursor⟩ := write_room hg invert data hcursor h
  obtain ⟨t, ht, hrt, htcursor⟩ := advancePage_draws hg hrcursor true
  refine ⟨t, ?_, hsr.trans hrt, htcursor⟩
  rw [oledWriteLn, hr]
  exact ht

theorem writeRawByte_draws {data : UInt8} {index : UInt16}
    (h : index.toNat < g.matrixSize ∨ s.buffer g.matrixSize = data) :
    ∃ t, s.oledWriteRawByte data index = some t ∧ Draws s t ∧ t.cursor = s.cursor := by
  rw [oledWriteRawByte]
  by_cases hin : index.toNat < g.matrixSize
  · rw [if_neg (Nat.lt_asymm hin)]
    exact putByte_draws hin data
  · have hend : (if g.matrixSize < index.toNat then g.matrixSize else index.toNat) = g.matrixSize := by
      split <;> omega
    rw [hend, putByte, if_pos (h.resolve_left hin)]
    exact ⟨s, rfl, .refl s, rfl⟩

theorem writeRawByte_outside {data : UInt8} {index : UInt16}
    (h : ¬ (index.toNat < g.matrixSize ∨ s.buffer g.matrixSize = data)) : s.oledWriteRawByte data index = none := by
  rw [not_or] at h
  have hend : (if g.matrixSize < index.toNat then g.matrixSize else index.toNat) = g.matrixSize := by
    split <;> omega
  rw [oledWriteRawByte, hend, putByte_outside h.2]

theorem Tracked.of_draws (h : Tracked s) {x : Option (OledState g)}
    (hx : ∃ t, x = some t ∧ Draws s t ∧ t.cursor < g.matrixSize) : ∃ t, x = some t ∧ Tracked t := by
  obtain ⟨t, ht, hst, hcursor⟩ := hx
  exact ⟨t, ht, h.draws hst hcursor⟩

theorem Tracked.of_draws_kept (h : Tracked s) {x : Option (OledState g)}
    (hx : ∃ t, x = some t ∧ Draws s t ∧ t.cursor = s.cursor) : ∃ t, x = some t ∧ Tracked t := by
  obtain ⟨t, ht, hst, hcursor⟩ := hx
  exact ⟨t, ht, h.draws hst (hcursor ▸ h.cursor_lt)⟩

theorem call_tracked (hg : g.Fits) (h : Tracked s) (c : OledCall) (hc : Inside s c) :
    ∃ t, s.call c = some t ∧ Tracked t := by
  cases c with
  | clear => exact ⟨_, rfl, clear_tracked s⟩
  | setCursor col line => exact ⟨_, rfl, setCursor_tracked h col line⟩
  | writeChar data invert =>
    rw [call, ← write_singleton]
    exact h.of_draws (write_room hg invert [data] h.cursor_lt hc)
  | write data invert => exact h.of_draws (write_room hg invert data h.cursor_lt hc)
  | writeLn data invert => exact h.of_draws (writeLn_draws hg h.cursor_lt data invert hc)
  | advancePage clearPageRemainder => exact h.of_draws (advancePage_draws hg h.cursor_lt clearPageRemainder)
  | pan left => exact h.of_draws_kept (pan_draws left)
  | writeRaw data size => exact h.of_draws_kept (writeRaw_draws hg h.cursor_lt data size)
  | writeRawByte data index => exact h.of_draws_kept (writeRawByte_draws hc)
  | writePixel x y on => exact h.of_draws_kept (writePixel_draws x y on)
  | renderDirty all onSent good => exact renderDirty_tracked hg all onSent good h

theorem call_outside (hg : g.Fits) (h : Tracked s) (c : OledCall) (hc : ¬ Inside s c) : s.call c = none := by
  cases c with
  | writeChar data invert =>
    rw [call, ← write_singleton]
    exact write_no_room hg invert [data] h.cursor_lt hc
  | write data invert => exact write_no_room hg invert data h.cursor_lt hc
  | writeLn data invert =>
    rw [call, oledWriteLn, write_no_room hg invert data h.cursor_lt hc]
    rfl
  | writeRawByte data index => exact writeRawByte_outside hc
  | _ => exact absurd trivial hc

def RunInside : List OledCall → OledState g → Prop
  | [], _ => True
  | c :: calls, s => Inside s c ∧ ∀ t, s.call c = some t → RunInside calls t

theorem run_tracked_iff (hg : g.Fits) (h : Tracked s) (calls : List OledCall) :
    (∃ t, run calls s = some t ∧ Tracked t) ↔ RunInside calls s := by
  induction calls generalizing s with
  | nil => exact ⟨fun _ => trivial, fun _ => ⟨s, rfl, h⟩⟩
  | cons c calls ih =>
    rw [run, RunInside]
    by_cases hc : Inside s c
    · obtain ⟨r, hr, htracked⟩ := call_tracked hg h c hc
      rw [hr, Option.bind_some, ih htracked]
      constructor
      · intro hrun
        refine ⟨hc, fun t ht => ?_⟩
        cases ht
        exact hrun
      · intro hrun
        exact hrun.2 r rfl
    · rw [call_outside hg h c hc]
      constructor
      · rintro ⟨t, ht, -⟩
        cases ht
      · intro hrun
        exact absurd hrun.1 hc

/-- From `oled_clear` on a run writes to the buffer only, with the cursor in it and each block without a mark as it was
sent last, just where each text has room for its first glyph and each raw byte is inside. -/
theorem oled_run_tracked_iff (hg : g.Fits) (s : OledState g) (calls : List OledCall) :
    (∃ t, run calls s.oledClear = some t ∧ Tracked t) ↔ RunInside calls s.oledClear :=
  run_tracked_iff hg (clear_tracked s) calls

end OledState

def oled128x32 (font : Mem UInt8) : OledGeometry where
  displayWidth := 128
  displayHeight := 32
  blockCount := 16
  blockSize := 32
  blockBits := 16
  fontWidth := 6
  fontStart := 0
  fontEnd := 223
  font := font
  rotated := false
  horizontalMode := true
  map := [(0, 24), (8, 16), (16, 8), (24, 0)]
  updateProcessLimit := 1
  intWidth := 32
  blocks := rfl
  blockCount_le := Nat.le_refl _
  matrixSize_pos := by decide
  fontWidth_pos := by decide
  intWidth_ge := by decide
  map_le := by decide

variable (font : Mem UInt8)

@[simp] theorem matrixSize_oled128x32 : (oled128x32 font).matrixSize = 512 := by
  simp [OledGeometry.matrixSize, oled128x32]

@[simp] theorem rotationWidth_oled128x32 : (oled128x32 font).rotationWidth = 128 := by
  simp [OledGeometry.rotationWidth, oled128x32]

@[simp] theorem fontWidth_oled128x32 : (oled128x32 font).fontWidth = 6 := rfl

theorem oled128x32_fits : (oled128x32 font).Fits where
  matrixSize_lt := by simp
  lines := by simp
  glyph_le_line := by simp
  glyph_le_blocks := by simp [oled128x32]
  pages := fun h => nomatch h

namespace OledState

def powerOn (g : OledGeometry) : OledState g := ⟨fun _ => 0, 0, 0, true, true, false, fun _ => none⟩

/-- A glyph in the last column that has room for it. -/
theorem oled_run_last_column : ∃ t, run [.setCursor 20 3, .writeChar 65 false, .renderDirty true true 99]
    (powerOn (oled128x32 fun _ => 0)).oledClear = some t ∧ Tracked t := by
  refine (oled_run_tracked_iff (oled128x32_fits _) _ _).mpr ⟨trivial, fun t ht => ?_⟩
  simp only [call, Option.some.injEq] at ht
  subst ht
  refine ⟨?_, fun t _ => ⟨trivial, fun _ _ => trivial⟩⟩
  simp [Inside, HasRoom, Room, oledSetCursor, moveTo, u16, newline]

/-- In the column behind it the glyph goes past the end of the buffer. -/
theorem glyph_past_end : ¬ ∀ (g : OledGeometry) (s : OledState g) (calls : List OledCall),
    ∃ t, run calls s.oledClear = some t ∧ Tracked t := by
  intro h
  obtain ⟨t, ht, -⟩ := h (oled128x32 fun _ => 0) (powerOn _) [.setCursor 21 3, .writeChar 65 false]
  have hroom : ¬ Room ((powerOn (oled128x32 fun _ => 0)).oledClear.oledSetCursor 21 3) := by
    simp [Room, oledSetCursor, moveTo, u16]
  have hnone : ((powerOn (oled128x32 fun _ => 0)).oledClear.oledSetCursor 21 3).oledWriteChar 65 false = none := by
    rw [oledWriteChar, if_neg (by decide), if_neg (by decide), drawChar_no_room hroom]
  rw [run, call, Option.bind_some, run, call, hnone] at ht
  cases ht

end OledState

end Drivers
end VialQmk
