import Mathlib.Data.List.Count
import Mathlib.Data.List.Nodup
import Mathlib.Data.List.Range
import VialQmk.Painter.Image

/-!
# Painter.Drawing

What the drawing functions share (`qp_draw_core.c`): the pixel buffer, and the calls of a driver that send it to a
display. A display takes the pixels that come after a viewport into that area, row by row.

* `transmit_ok`: what goes out where no call fails.
* `transmit_sent`, `setpixel_sent`: what goes out whatever the calls answer.
* `filter_window`: an area that is sent once has each of its pixels once.
-/

namespace VialQmk
namespace Painter

def toInt16 (v : Int) : Int := (v + 32768) % 65536 - 32768

def toUInt16 (v : Int) : Nat := (v % 65536).toNat

/-- What the functions ask of a driver. `answer` says what each of the calls returns, by its number. -/
structure DrawDriver (ν : Type) where
  pixdataBufferSize : Nat
  buffer_pos : 0 < pixdataBufferSize
  buffer_mod : pixdataBufferSize % 16 = 0
  nativeBitsPerPixel : Nat
  bits_pos : 0 < nativeBitsPerPixel
  bits_le : nativeBitsPerPixel ≤ 24
  paletteConvert : Hsv888 → ν
  validateOk : Bool
  commsStart : Bool
  answer : Nat → Bool

structure Window where
  left : Nat
  top : Nat
  right : Nat
  bottom : Nat
deriving DecidableEq, Repr

namespace Window

variable (win : Window)

def width : Nat := win.right - win.left + 1

def height : Nat := win.bottom - win.top + 1

/-- Where the display puts the pixel that comes after `i` others. -/
def pixel (i : Nat) : Nat × Nat := (win.left + i % win.width, win.top + i / win.width % win.height)

def Has (p : Nat × Nat) : Prop := (win.left ≤ p.1 ∧ p.1 ≤ win.right) ∧ win.top ≤ p.2 ∧ p.2 ≤ win.bottom
deriving Decidable

end Window

/-- `qp_internal_global_pixdata_buffer` by its pixels, the area that was set last and how many pixels have come to
it, the number of calls, and what has gone out: each pixel with its place, and each area. A call that returns
`false` may have done its work all the same, and is taken to have done it. -/
structure Canvas (ν : Type) where
  buffer : Nat → ν
  window : Window
  streamed : Nat
  calls : Nat
  sent : List ((Nat × Nat) × ν)
  windows : List Window

def Canvas.clean {ν : Type} (c : Canvas ν) : Canvas ν := { c with sent := [], windows := [] }

theorem toInt16_eq {v : Int} (hlow : -32768 ≤ v) (hup : v < 32768) : toInt16 v = v := by
  rw [toInt16]
  omega

theorem toUInt16_natCast {n : Nat} (h : n < 65536) : toUInt16 n = n := by
  rw [toUInt16]
  omega

namespace DrawDriver

variable {ν : Type} (d : DrawDriver ν)

def numPixelsInBuffer : Nat := d.pixdataBufferSize * 8 / d.nativeBitsPerPixel

def viewport (left top right bottom : Nat) (c : Canvas ν) : Bool × Canvas ν :=
  (d.answer c.calls,
    { c with
      window := ⟨left, top, right, bottom⟩
      streamed := 0
      calls := c.calls + 1
      windows := c.windows ++ [⟨left, top, right, bottom⟩] })

def pixdata (count : Nat) (c : Canvas ν) : Bool × Canvas ν :=
  (d.answer c.calls,
    { c with
      streamed := c.streamed + count
      calls := c.calls + 1
      sent := c.sent ++ (List.range count).map fun i => (c.window.pixel (c.streamed + i), c.buffer i) })

def setpixelImpl (x y : Nat) (c : Canvas ν) : Bool × Canvas ν :=
  let (ok, c) := d.viewport x y x y c
  if ok then d.pixdata 1 c else (false, c)

def appendPixel (colour : ν) (c : Canvas ν) (i : Nat) : Canvas ν :=
  { c with buffer := fun j => if j = i then colour else c.buffer j }

def fillPixdata (numPixels : Nat) (hsv : Hsv888) (c : Canvas ν) : Canvas ν :=
  (List.range (min d.numPixelsInBuffer numPixels)).foldl (appendPixel (d.paletteConvert hsv)) c

theorem numPixelsInBuffer_pos : 0 < d.numPixelsInBuffer := by
  have hpos := d.buffer_pos
  have hmod := d.buffer_mod
  have hbits := d.bits_le
  exact Nat.div_pos (by omega) d.bits_pos

def transmit (remaining : Nat) (c : Canvas ν) : Bool × Canvas ν :=
  if remaining = 0 then (true, c)
  else
    let count := min remaining d.numPixelsInBuffer
    if (d.pixdata count c).1 then transmit (remaining - count) (d.pixdata count c).2
    else (false, (d.pixdata count c).2)
termination_by remaining
decreasing_by
  have hpos := d.numPixelsInBuffer_pos
  omega

def fillrectHelperImpl (left top right bottom : Nat) (c : Canvas ν) : Bool × Canvas ν :=
  let l := min left right
  let r := max left right
  let t := min top bottom
  let b := max top bottom
  let w := (r - l + 1) % 65536
  let h := (b - t + 1) % 65536
  d.transmit (w * h) (d.viewport l t r b c).2

variable {d} {c : Canvas ν}

theorem foldl_appendPixel (colour : ν) (n : Nat) (c : Canvas ν) :
    (List.range n).foldl (appendPixel colour) c =
      { c with buffer := fun j => if j < n then colour else c.buffer j } := by
  induction n with
  | zero => simp
  | succ n ih =>
    rw [List.range_succ, List.foldl_append, ih]
    simp only [List.foldl_cons, List.foldl_nil, appendPixel]
    congr 1
    funext j
    rcases Nat.lt_trichotomy j n with h | h | h
    · rw [if_neg (Nat.ne_of_lt h), if_pos h, if_pos (Nat.lt_succ_of_lt h)]
    · rw [if_pos h, if_pos (h ▸ Nat.lt_succ_self n)]
    · rw [if_neg (Nat.ne_of_gt h), if_neg (Nat.lt_asymm h), if_neg (Nat.not_lt.mpr h)]

theorem fillPixdata_eq (numPixels : Nat) (hsv : Hsv888) (c : Canvas ν) :
    d.fillPixdata numPixels hsv c =
      { c with buffer := fun j =>
          if j < min d.numPixelsInBuffer numPixels then d.paletteConvert hsv else c.buffer j } :=
  foldl_appendPixel _ _ _

variable (d) in
structure Succeeds : Prop where
  validateOk : d.validateOk = true
  commsStart : d.commsStart = true
  answer : ∀ n, d.answer n = true

theorem viewport_fst (h : Succeeds d) (left top right bottom : Nat) :
    (d.viewport left top right bottom c).1 = true := h.answer _

theorem pixdata_fst (h : Succeeds d) (count : Nat) : (d.pixdata count c).1 = true := h.answer _

/-- The pixels that go out for an area, out of a buffer that is sent again and again. -/
def area (d : DrawDriver ν) (win : Window) (start count : Nat) (buffer : Nat → ν) : List ((Nat × Nat) × ν) :=
  (List.range count).map fun i => (win.pixel (start + i), buffer (i % d.numPixelsInBuffer))

theorem area_add (win : Window) (start count : Nat) (buffer : Nat → ν) :
    area d win start (d.numPixelsInBuffer + count) buffer =
      area d win start d.numPixelsInBuffer buffer ++ area d win (start + d.numPixelsInBuffer) count buffer := by
  simp only [area, List.range_add, List.map_append, List.map_map]
  congr 1
  apply List.map_congr_left
  intro i _
  simp [Nat.add_assoc]

theorem area_of_le (win : Window) (start : Nat) {count : Nat} (buffer : Nat → ν) (h : count ≤ d.numPixelsInBuffer) :
    area d win start count buffer = (List.range count).map fun i => (win.pixel (start + i), buffer i) := by
  apply List.map_congr_left
  intro i hi
  rw [Nat.mod_eq_of_lt (Nat.lt_of_lt_of_le (List.mem_range.mp hi) h)]

/-- What a call that succeeds leaves as it was, and what has gone out. -/
structure SendsArea (c c' : Canvas ν) (sent : List ((Nat × Nat) × ν)) : Prop where
  buffer : c'.buffer = c.buffer
  sent : c'.sent = c.sent ++ sent

theorem transmit_ok (h : Succeeds d) (remaining : Nat) (c : Canvas ν) :
    (d.transmit remaining c).1 = true ∧
      SendsArea c (d.transmit remaining c).2 (area d c.window c.streamed remaining c.buffer) := by
  fun_induction transmit d remaining c with
  | case1 c => exact ⟨rfl, rfl, by simp [area]⟩
  | case2 remaining c hne count hok ih =>
    refine ⟨ih.1, ih.2.buffer, ?_⟩
    rw [ih.2.sent]
    show (c.sent ++ (List.range count).map fun i => (c.window.pixel (c.streamed + i), c.buffer i)) ++
      area d c.window (c.streamed + count) (remaining - count) c.buffer = _
    rw [List.append_assoc, ← area_of_le _ _ _ (Nat.min_le_right remaining _)]
    congr 1
    rcases Nat.le_total remaining d.numPixelsInBuffer with hle | hle
    · simp only [count, Nat.min_eq_left hle, Nat.sub_self]
      simp [area]
    · simp only [count, Nat.min_eq_right hle]
      rw [← area_add, Nat.add_sub_cancel' hle]
  | case3 remaining c hne count hok => exact absurd (pixdata_fst h count) hok

theorem setpixelImpl_ok (h : Succeeds d) (x y : Nat) (c : Canvas ν) :
    (d.setpixelImpl x y c).1 = true ∧ SendsArea c (d.setpixelImpl x y c).2 [((x, y), c.buffer 0)] := by
  rw [setpixelImpl]
  simp only [viewport_fst h, if_true]
  refine ⟨pixdata_fst h 1, rfl, ?_⟩
  simp [pixdata, viewport, Window.pixel, Window.width, Window.height, Nat.mod_one]

theorem fillrectHelperImpl_ok (h : Succeeds d) {l t r b : Nat} (left top right bottom : Nat)
    (hl : min left right = l) (hr : max left right = r) (ht : min top bottom = t) (hb : max top bottom = b)
    (hw : r - l + 1 < 65536) (hh : b - t + 1 < 65536) (c : Canvas ν) :
    (d.fillrectHelperImpl left top right bottom c).1 = true ∧
      SendsArea c (d.fillrectHelperImpl left top right bottom c).2
        (area d ⟨l, t, r, b⟩ 0 ((r - l + 1) * (b - t + 1)) c.buffer) := by
  rw [fillrectHelperImpl]
  simp only [hl, hr, ht, hb, Nat.mod_eq_of_lt hw, Nat.mod_eq_of_lt hh]
  obtain ⟨hok, hbuffer, hsent⟩ := transmit_ok h ((r - l + 1) * (b - t + 1)) (d.viewport l t r b c).2
  exact ⟨hok, hbuffer, hsent⟩

end DrawDriver

namespace Window

variable {win : Window}

def index (win : Window) (p : Nat × Nat) : Nat := (p.2 - win.top) * win.width + (p.1 - win.left)

theorem has_iff (hx : win.left ≤ win.right) (hy : win.top ≤ win.bottom) (p : Nat × Nat) :
    win.Has p ↔ ∃ x < win.width, ∃ y < win.height, p = (win.left + x, win.top + y) := by
  constructor
  · intro h
    obtain ⟨⟨hleft, hright⟩, htop, hbottom⟩ := h
    refine ⟨p.1 - win.left, ?_, p.2 - win.top, ?_, Prod.ext ?_ ?_⟩
    · rw [width]; omega
    · rw [height]; omega
    · exact (Nat.add_sub_cancel' hleft).symm
    · exact (Nat.add_sub_cancel' htop).symm
  · rintro ⟨x, hxw, y, hyh, rfl⟩
    rw [width] at hxw
    rw [height] at hyh
    refine ⟨⟨Nat.le_add_right _ _, ?_⟩, Nat.le_add_right _ _, ?_⟩
    · show win.left + x ≤ win.right
      omega
    · show win.top + y ≤ win.bottom
      omega

theorem width_pos (win : Window) : 0 < win.width := Nat.succ_pos _

theorem pixel_eq_iff {i : Nat} (hi : i < win.width * win.height) (x y : Nat) (hx : x < win.width) :
    win.pixel i = (win.left + x, win.top + y) ↔ i = y * win.width + x := by
  have hrow : i / win.width < win.height := Nat.div_lt_of_lt_mul hi
  rw [pixel, Nat.mod_eq_of_lt hrow, Prod.mk.injEq, Nat.add_left_cancel_iff, Nat.add_left_cancel_iff]
  constructor
  · rintro ⟨rfl, rfl⟩
    rw [Nat.mul_comm]
    exact (Nat.div_add_mod i win.width).symm
  · rintro rfl
    rw [Nat.mul_comm]
    constructor
    · rw [Nat.mul_add_mod, Nat.mod_eq_of_lt hx]
    · rw [Nat.mul_add_div win.width_pos, Nat.div_eq_of_lt hx, Nat.add_zero]

theorem pixel_has (win : Window) (hx : win.left ≤ win.right) (hy : win.top ≤ win.bottom) {i : Nat}
    (hi : i < win.width * win.height) : win.Has (win.pixel i) := by
  have hrow : i / win.width < win.height := Nat.div_lt_of_lt_mul hi
  refine (has_iff hx hy _).mpr ⟨i % win.width, Nat.mod_lt _ win.width_pos, i / win.width, hrow, ?_⟩
  rw [pixel, Nat.mod_eq_of_lt hrow]

theorem filter_range_eq {n i : Nat} {p : Nat → Bool} (hi : i < n) (hp : ∀ j < n, p j = true ↔ j = i) :
    (List.range n).filter p = [i] := by
  have hfilter : (List.range n).filter p = (List.range n).filter fun j => j == i := by
    apply List.filter_congr
    intro j hj
    rw [Bool.eq_iff_iff, hp j (List.mem_range.mp hj), beq_iff_eq]
  rw [hfilter, List.filter_beq, List.count_eq_one_of_mem List.nodup_range (List.mem_range.mpr hi),
    List.replicate_one]

theorem index_lt {x y : Nat} (hx : x < win.width) (hy : y < win.height) :
    y * win.width + x < win.width * win.height := by
  calc y * win.width + x < y * win.width + win.width := Nat.add_lt_add_left hx _
    _ = (y + 1) * win.width := (Nat.succ_mul y win.width).symm
    _ ≤ win.height * win.width := Nat.mul_le_mul_right _ hy
    _ = win.width * win.height := Nat.mul_comm _ _

/-- Of all that is sent to an area, one pixel comes to each of its places and none elsewhere. -/
theorem filter_window {ν : Type} (hx : win.left ≤ win.right) (hy : win.top ≤ win.bottom) (value : Nat → ν)
    (p : Nat × Nat) :
    ((List.range (win.width * win.height)).map fun i => (win.pixel i, value i)).filter (fun e => e.1 = p) =
      if win.Has p then [(p, value (win.index p))] else [] := by
  rw [List.filter_map]
  split
  · rename_i h
    obtain ⟨x, hxw, y, hyh, rfl⟩ := (has_iff hx hy p).mp h
    have hone : (List.range (win.width * win.height)).filter
        ((fun e => decide (e.1 = (win.left + x, win.top + y))) ∘ fun i => (win.pixel i, value i)) =
        [y * win.width + x] := by
      apply filter_range_eq (index_lt hxw hyh)
      intro j hj
      rw [Function.comp_apply, decide_eq_true_eq, pixel_eq_iff hj x y hxw]
    have hindex : win.index (win.left + x, win.top + y) = y * win.width + x := by
      simp [index]
    rw [hone, hindex, List.map_singleton, (pixel_eq_iff (index_lt hxw hyh) x y hxw).mpr rfl]
  · rename_i h
    have hnone : (List.range (win.width * win.height)).filter
        ((fun e => decide (e.1 = p)) ∘ fun i => (win.pixel i, value i)) = [] := by
      rw [List.filter_eq_nil_iff]
      intro j hj
      rw [Function.comp_apply, decide_eq_true_eq]
      rintro rfl
      exact h (pixel_has win hx hy (List.mem_range.mp hj))
    rw [hnone, List.map_nil]

theorem mem_window {ν : Type} (win : Window) (hx : win.left ≤ win.right) (hy : win.top ≤ win.bottom) (value : Nat → ν)
    (p : Nat × Nat) (v : ν) :
    (p, v) ∈ ((List.range (win.width * win.height)).map fun i => (win.pixel i, value i)) ↔
      win.Has p ∧ v = value (win.index p) := by
  have hfilter : ∀ sent : List ((Nat × Nat) × ν), (p, v) ∈ sent ↔ (p, v) ∈ sent.filter (fun e => e.1 = p) := by
    intro sent
    simp [List.mem_filter]
  rw [hfilter, filter_window hx hy]
  by_cases h : win.Has p
  · rw [if_pos h]
    simp [h]
  · rw [if_neg h]
    simp [h]

theorem mem_pixels (hx : win.left ≤ win.right) (hy : win.top ≤ win.bottom) (p : Nat × Nat) :
    p ∈ (List.range (win.width * win.height)).map win.pixel ↔ win.Has p := by
  constructor
  · intro h
    obtain ⟨i, hi, rfl⟩ := List.mem_map.mp h
    exact pixel_has win hx hy (List.mem_range.mp hi)
  · intro h
    obtain ⟨x, hxw, y, hyh, rfl⟩ := (has_iff hx hy p).mp h
    have hlt := index_lt hxw hyh
    exact List.mem_map.mpr ⟨_, List.mem_range.mpr hlt, (pixel_eq_iff hlt x y hxw).mpr rfl⟩

theorem nodup_pixels (hx : win.left ≤ win.right) (hy : win.top ≤ win.bottom) :
    ((List.range (win.width * win.height)).map win.pixel).Nodup := by
  refine List.Nodup.map_on (fun i hi j hj heq => ?_) List.nodup_range
  obtain ⟨x, hxw, y, -, hp⟩ := (has_iff hx hy _).mp (pixel_has win hx hy (List.mem_range.mp hi))
  have hi' := (pixel_eq_iff (List.mem_range.mp hi) x y hxw).mp hp
  have hj' := (pixel_eq_iff (List.mem_range.mp hj) x y hxw).mp (heq.symm.trans hp)
  rw [hi', hj']

theorem perm_pixels (hx : win.left ≤ win.right) (hy : win.top ≤ win.bottom) {places : List (Nat × Nat)}
    (hnodup : places.Nodup) (hplaces : ∀ p, p ∈ places ↔ win.Has p) :
    ((List.range (win.width * win.height)).map win.pixel).Perm places := by
  refine (List.perm_ext_iff_of_nodup (nodup_pixels hx hy) hnodup).mpr fun p => ?_
  rw [mem_pixels hx hy, hplaces]

end Window
end Painter
end VialQmk
