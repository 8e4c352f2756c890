import VialQmk.Painter.Drawing

/-!
# Painter.Rect

`qp_rect` (`qp_draw_core.c`): a rectangle as one area, or its outline as four.

* `outline_ok`: the areas go out one after another.
* `qp_rect_paints_iff`: what is painted is the rectangle, or its border, but for an outline one pixel high.
-/

namespace VialQmk
namespace Painter

namespace DrawDriver

variable {ν : Type} (d : DrawDriver ν)

/-- The calls of the helper for an outline, up to the first that fails. -/
def outline : List Window → Canvas ν → Bool × Canvas ν
  | [], c => (true, c)
  | win :: rest, c =>
    let (ok, c) := d.fillrectHelperImpl win.left win.top win.right win.bottom c
    if ok then outline rest c else (false, c)

/-- The sides as `qp_rect` gives them to the helper, in 16 bits. -/
def sides (l t r b : Nat) : List Window :=
  [⟨l, t, r, t⟩, ⟨l, b, r, b⟩, ⟨l, (t + 1) % 65536, l, (b + 65535) % 65536⟩,
    ⟨r, (t + 1) % 65536, r, (b + 65535) % 65536⟩]

def qpRect (left top right bottom : UInt16) (hsv : Hsv888) (filled : Bool) (c : Canvas ν) : Bool × Canvas ν :=
  if d.validateOk = false then (false, c)
  else
    let l := min left.toNat right.toNat
    let r := max left.toNat right.toNat
    let t := min top.toNat bottom.toNat
    let b := max top.toNat bottom.toNat
    let w := (r - l + 1) % 65536
    let h := (b - t + 1) % 65536
    if d.commsStart = false then (false, c)
    else if filled then d.fillrectHelperImpl l t r b (d.fillPixdata (w * h) hsv c)
    else d.outline (sides l t r b) (d.fillPixdata (max w h) hsv c)

end DrawDriver

def spanned (left top right bottom : UInt16) : Window :=
  ⟨min left.toNat right.toNat, min top.toNat bottom.toNat, max left.toNat right.toNat, max top.toNat bottom.toNat⟩

def Window.OnBorder (win : Window) (p : Nat × Nat) : Prop :=
  win.Has p ∧ (p.1 = win.left ∨ p.1 = win.right ∨ p.2 = win.top ∨ p.2 = win.bottom)

/-- A filled rectangle has each of its pixels sent once in this colour and no other pixel; of one that is not filled
the pixels of the border are sent in this colour and no others. -/
def PaintsRect {ν : Type} (win : Window) (filled : Bool) (colour : ν) (sent : List ((Nat × Nat) × ν)) : Prop :=
  if filled then ∀ p, sent.filter (fun e => e.1 = p) = if win.Has p then [(p, colour)] else []
  else ∀ p value, (p, value) ∈ sent ↔ win.OnBorder p ∧ value = colour

namespace DrawDriver

variable {ν : Type} {d : DrawDriver ν} {c : Canvas ν}

theorem spanned_le (left top right bottom : UInt16) :
    (spanned left top right bottom).left ≤ (spanned left top right bottom).right ∧
      (spanned left top right bottom).top ≤ (spanned left top right bottom).bottom := by
  simp only [spanned]
  omega

theorem spanned_bottom_lt (left top right bottom : UInt16) : (spanned left top right bottom).bottom < 65536 := by
  have htop := top.toNat_lt
  have hbottom := bottom.toNat_lt
  simp only [spanned]
  omega

theorem area_filled (win : Window) {count numPixels : Nat} (hsv : Hsv888) (h : count ≤ numPixels) :
    area d win 0 count (d.fillPixdata numPixels hsv c).buffer =
      (List.range count).map fun i => (win.pixel i, d.paletteConvert hsv) := by
  apply List.map_congr_left
  intro i hi
  have hlt := Nat.mod_lt i d.numPixelsInBuffer_pos
  have hle := Nat.mod_le i d.numPixelsInBuffer
  have hcount := List.mem_range.mp hi
  rw [fillPixdata_eq, Nat.zero_add]
  simp only
  rw [if_pos (by omega)]

/-- The area goes out as it is, with its edges in order or not. -/
def sideArea (d : DrawDriver ν) (buffer : Nat → ν) (win : Window) : List ((Nat × Nat) × ν) :=
  area d ⟨min win.left win.right, min win.top win.bottom, max win.left win.right, max win.top win.bottom⟩ 0
    ((max win.left win.right - min win.left win.right + 1) * (max win.top win.bottom - min win.top win.bottom + 1))
    buffer

theorem outline_ok (h : Succeeds d) (wins : List Window) (c : Canvas ν)
    (hsize : ∀ win ∈ wins, max win.left win.right - min win.left win.right + 1 < 65536 ∧
      max win.top win.bottom - min win.top win.bottom + 1 < 65536) :
    (d.outline wins c).1 = true ∧
      SendsArea c (d.outline wins c).2 (wins.flatMap (sideArea d c.buffer)) := by
  induction wins generalizing c with
  | nil => exact ⟨rfl, rfl, by simp [outline]⟩
  | cons win rest ih =>
    obtain ⟨hwidth, hheight⟩ := hsize win List.mem_cons_self
    obtain ⟨hok, hbuffer, hsent⟩ :=
      fillrectHelperImpl_ok h win.left win.top win.right win.bottom rfl rfl rfl rfl hwidth hheight c
    obtain ⟨hrest, hrestBuffer, hrestSent⟩ :=
      ih (d.fillrectHelperImpl win.left win.top win.right win.bottom c).2
        (fun w hw => hsize w (List.mem_cons_of_mem win hw))
    rw [outline]
    simp only [hok, if_true]
    refine ⟨hrest, hrestBuffer.trans hbuffer, ?_⟩
    rw [hrestSent, hsent, hbuffer, List.flatMap_cons, List.append_assoc]
    rfl

theorem mem_sideArea (buffer : Nat → ν) (win : Window) (p : Nat × Nat) :
    (∃ v, (p, v) ∈ sideArea d buffer win) ↔
      (min win.left win.right ≤ p.1 ∧ p.1 ≤ max win.left win.right) ∧
        min win.top win.bottom ≤ p.2 ∧ p.2 ≤ max win.top win.bottom := by
  have hsorted : ∀ a b : Nat, min a b ≤ max a b := fun a b => by omega
  have hmem := fun v => Window.mem_window
    ⟨min win.left win.right, min win.top win.bottom, max win.left win.right, max win.top win.bottom⟩
    (hsorted _ _) (hsorted _ _) (fun i => buffer (i % d.numPixelsInBuffer)) p v
  simp only [sideArea, area, Nat.zero_add]
  constructor
  · rintro ⟨v, hv⟩
    exact ((hmem v).mp hv).1
  · intro h
    exact ⟨_, (hmem _).mpr ⟨h, rfl⟩⟩

theorem sideArea_colour {win : Window} {numPixels : Nat} (hsv : Hsv888)
    (h : (max win.left win.right - min win.left win.right + 1) *
      (max win.top win.bottom - min win.top win.bottom + 1) ≤ numPixels) :
    ∀ e ∈ sideArea d (d.fillPixdata numPixels hsv c).buffer win, e.2 = d.paletteConvert hsv := by
  intro e he
  rw [sideArea, area_filled _ hsv h] at he
  obtain ⟨i, -, rfl⟩ := List.mem_map.mp he
  rfl

section Paints

variable {left top right bottom : UInt16}

theorem qpRect_eq (h : Succeeds d) {win : Window} (hwin : spanned left top right bottom = win)
    (hw : win.width ≤ 32767) (hh : win.height ≤ 32767) (hsv : Hsv888) (filled : Bool) (c : Canvas ν) :
    d.qpRect left top right bottom hsv filled c =
      if filled then d.fillrectHelperImpl win.left win.top win.right win.bottom
        (d.fillPixdata (win.width * win.height) hsv c)
      else d.outline (sides win.left win.top win.right win.bottom)
        (d.fillPixdata (max win.width win.height) hsv c) := by
  subst hwin
  have hwidth : (max left.toNat right.toNat - min left.toNat right.toNat + 1) % 65536 =
      (spanned left top right bottom).width := Nat.mod_eq_of_lt (Nat.lt_of_le_of_lt hw (by decide))
  have hheight : (max top.toNat bottom.toNat - min top.toNat bottom.toNat + 1) % 65536 =
      (spanned left top right bottom).height := Nat.mod_eq_of_lt (Nat.lt_of_le_of_lt hh (by decide))
  rw [qpRect]
  simp only [h.validateOk, h.commsStart, Bool.true_eq_false, if_false, hwidth, hheight]
  rfl

variable {win : Window}

theorem filled_sent (h : Succeeds d) (hx : win.left ≤ win.right) (hy : win.top ≤ win.bottom)
    (hw : win.width ≤ 32767) (hh : win.height ≤ 32767) (hsv : Hsv888) (c : Canvas ν) :
    (d.fillrectHelperImpl win.left win.top win.right win.bottom
      (d.fillPixdata (win.width * win.height) hsv c)).1 = true ∧
    (d.fillrectHelperImpl win.left win.top win.right win.bottom
      (d.fillPixdata (win.width * win.height) hsv c)).2.sent =
        c.sent ++ (List.range (win.width * win.height)).map fun i => (win.pixel i, d.paletteConvert hsv) := by
  obtain ⟨hok, -, hsent⟩ := fillrectHelperImpl_ok h _ _ _ _ (Nat.min_eq_left hx) (Nat.max_eq_right hx)
    (Nat.min_eq_left hy) (Nat.max_eq_right hy) (Nat.lt_of_le_of_lt hw (by decide))
    (Nat.lt_of_le_of_lt hh (by decide)) (d.fillPixdata (win.width * win.height) hsv c)
  refine ⟨hok, hsent.trans ?_⟩
  rw [← area_filled win hsv (Nat.le_refl _), fillPixdata_eq]
  rfl

theorem sides_small (hx : win.left ≤ win.right) (hy : win.top ≤ win.bottom) (hw : win.width ≤ 32767)
    (hbottom : win.bottom < 65536) :
    ∀ side ∈ sides win.left win.top win.right win.bottom,
      max side.left side.right - min side.left side.right + 1 < 65536 ∧
        max side.top side.bottom - min side.top side.bottom + 1 < 65536 := by
  rw [Window.width] at hw
  intro side hside
  simp only [sides, List.mem_cons, List.not_mem_nil, or_false] at hside
  rcases hside with rfl | rfl | rfl | rfl <;> (constructor <;> simp only <;> omega)

theorem outline_sent (h : Succeeds d) (hx : win.left ≤ win.right) (hy : win.top ≤ win.bottom)
    (hw : win.width ≤ 32767) (hbottom : win.bottom < 65536) (hsv : Hsv888) (c : Canvas ν) :
    (d.outline (sides win.left win.top win.right win.bottom)
      (d.fillPixdata (max win.width win.height) hsv c)).1 = true ∧
    (d.outline (sides win.left win.top win.right win.bottom)
      (d.fillPixdata (max win.width win.height) hsv c)).2.sent =
        c.sent ++ (sides win.left win.top win.right win.bottom).flatMap
          (sideArea d (d.fillPixdata (max win.width win.height) hsv c).buffer) := by
  obtain ⟨hok, -, hsent⟩ := outline_ok h _ (d.fillPixdata (max win.width win.height) hsv c)
    (sides_small hx hy hw hbottom)
  refine ⟨hok, hsent.trans ?_⟩
  rw [fillPixdata_eq]

theorem outline_paints (hx : win.left ≤ win.right) (hbottom : win.bottom < 65536) (hrows : win.top < win.bottom)
    (hsv : Hsv888) (c : Canvas ν) (p : Nat × Nat) (v : ν) :
    (p, v) ∈ (sides win.left win.top win.right win.bottom).flatMap
        (sideArea d (d.fillPixdata (max win.width win.height) hsv c).buffer) ↔
      win.OnBorder p ∧ v = d.paletteConvert hsv := by
  have hcolour : ∀ side ∈ sides win.left win.top win.right win.bottom,
      ∀ e ∈ sideArea d (d.fillPixdata (max win.width win.height) hsv c).buffer side, e.2 = d.paletteConvert hsv := by
    intro side hside
    apply sideArea_colour
    simp only [sides, List.mem_cons, List.not_mem_nil, or_false] at hside
    rw [Window.width, Window.height]
    rcases hside with rfl | rfl | rfl | rfl <;> simp only [Nat.min_self, Nat.max_self, Nat.sub_self] <;> omega
  have hplace : (∃ side ∈ sides win.left win.top win.right win.bottom,
      (min side.left side.right ≤ p.1 ∧ p.1 ≤ max side.left side.right) ∧
        min side.top side.bottom ≤ p.2 ∧ p.2 ≤ max side.top side.bottom) ↔ win.OnBorder p := by
    simp only [sides, List.mem_cons, List.not_mem_nil, or_false, exists_eq_or_imp, exists_eq_left,
      Window.OnBorder, Window.Has]
    omega
  rw [← hplace, List.mem_flatMap]
  constructor
  · rintro ⟨side, hside, hmem⟩
    exact ⟨⟨side, hside, (mem_sideArea _ side p).mp ⟨v, hmem⟩⟩, hcolour side hside _ hmem⟩
  · rintro ⟨⟨side, hside, hin⟩, rfl⟩
    obtain ⟨v, hv⟩ := (mem_sideArea (d.fillPixdata (max win.width win.height) hsv c).buffer side p).mpr hin
    have hv' : v = d.paletteConvert hsv := hcolour side hside _ hv
    exact ⟨side, hside, hv' ▸ hv⟩

theorem outline_outside (win : Window) (hrow : win.top = win.bottom) (buffer : Nat → ν) :
    ∃ p v, (p, v) ∈ (sides win.left win.top win.right win.bottom).flatMap (sideArea d buffer) ∧ ¬win.OnBorder p := by
  obtain ⟨v, hv⟩ := (mem_sideArea (d := d) buffer
    ⟨win.left, (win.top + 1) % 65536, win.left, (win.bottom + 65535) % 65536⟩
    (win.left, (win.top + 1) % 65536)).mpr (by simp only; omega)
  refine ⟨_, v, List.mem_flatMap.mpr ⟨_, by simp [sides], hv⟩, fun hon => ?_⟩
  obtain ⟨⟨-, htop, hle⟩, -⟩ := hon
  simp only at htop hle
  omega

end Paints

/-- A rectangle is painted as it should be just where it is filled or has two rows or more. -/
theorem qp_rect_paints_iff (d : DrawDriver ν) (h : Succeeds d) (left top right bottom : UInt16)
    (hw : (spanned left top right bottom).width ≤ 32767) (hh : (spanned left top right bottom).height ≤ 32767)
    (hsv : Hsv888) (filled : Bool) (c : Canvas ν) :
    ((d.qpRect left top right bottom hsv filled c.clean).1 = true ∧
        PaintsRect (spanned left top right bottom) filled (d.paletteConvert hsv)
          (d.qpRect left top right bottom hsv filled c.clean).2.sent) ↔
      filled = true ∨ top ≠ bottom := by
  obtain ⟨hx, hy⟩ := spanned_le left top right bottom
  have hbottom := spanned_bottom_lt left top right bottom
  rw [qpRect_eq h rfl hw hh]
  cases filled with
  | true =>
    obtain ⟨hok, hsent⟩ := filled_sent h hx hy hw hh hsv c.clean
    simp only [if_true, true_or, iff_true]
    refine ⟨hok, ?_⟩
    rw [hsent, PaintsRect, if_pos rfl]
    exact Window.filter_window hx hy _
  | false =>
    obtain ⟨hok, hsent⟩ := outline_sent h hx hy hw hbottom hsv c.clean
    have hrows : (spanned left top right bottom).top = (spanned left top right bottom).bottom ↔ top = bottom := by
      rw [← UInt16.toNat_inj]
      simp only [spanned]
      omega
    have hclean : ∀ sent : List ((Nat × Nat) × ν), c.clean.sent ++ sent = sent := List.nil_append
    simp only [Bool.false_eq_true, if_false, false_or]
    rw [hsent, hclean, PaintsRect, if_neg Bool.false_ne_true]
    constructor
    · rintro ⟨-, hpaints⟩ heq
      obtain ⟨p, v, hmem, hout⟩ := outline_outside (d := d) _ (hrows.mpr heq)
        (d.fillPixdata (max (spanned left top right bottom).width (spanned left top right bottom).height)
          hsv c.clean).buffer
      exact hout ((hpaints p v).mp hmem).1
    · intro hne
      have hlt := Nat.lt_of_le_of_ne hy fun heq => hne (hrows.mp heq)
      exact ⟨hok, outline_paints hx hbottom hlt hsv c.clean⟩

/-- A display of 16 bits for each pixel that takes colours as they are. -/
def plainDriver : DrawDriver Hsv888 where
  pixdataBufferSize := 1024
  buffer_pos := Nat.succ_pos 1023
  buffer_mod := rfl
  nativeBitsPerPixel := 16
  bits_pos := Nat.succ_pos 15
  bits_le := Nat.le_add_right 16 8
  paletteConvert := id
  validateOk := true
  commsStart := true
  answer := fun _ => true

theorem plainDriver_succeeds : Succeeds plainDriver := ⟨rfl, rfl, fun _ => rfl⟩

def blankCanvas : Canvas Hsv888 := ⟨fun _ => ⟨0, 0, 0⟩, ⟨0, 0, 0, 0⟩, 0, 0, [], []⟩

theorem qp_rect_paints_iff_small :
    ((plainDriver.qpRect 4 3 1 2 ⟨0, 0, 255⟩ false blankCanvas.clean).1 = true ∧
        PaintsRect (spanned 4 3 1 2) false ⟨0, 0, 255⟩
          (plainDriver.qpRect 4 3 1 2 ⟨0, 0, 255⟩ false blankCanvas.clean).2.sent) ↔
      false = true ∨ (3 : UInt16) ≠ 2 :=
  qp_rect_paints_iff plainDriver plainDriver_succeeds 4 3 1 2 (by decide) (by decide) ⟨0, 0, 255⟩ false blankCanvas

/-- The outline of the four pixels from (2, 3) to (5, 3). -/
theorem qp_rect_row_spills :
    ¬PaintsRect (spanned 2 3 5 3) false ⟨0, 0, 255⟩
      (plainDriver.qpRect 2 3 5 3 ⟨0, 0, 255⟩ false blankCanvas.clean).2.sent := by
  intro hpaints
  rw [qpRect_eq plainDriver_succeeds rfl (by decide) (by decide), if_neg Bool.false_ne_true,
    (outline_sent plainDriver_succeeds (by decide) (by decide) (by decide) (by decide) ⟨0, 0, 255⟩
      blankCanvas.clean).2, PaintsRect, if_neg Bool.false_ne_true] at hpaints
  obtain ⟨p, v, hmem, hout⟩ := outline_outside (d := plainDriver) (spanned 2 3 5 3) rfl
    (plainDriver.fillPixdata 4 ⟨0, 0, 255⟩ blankCanvas.clean).buffer
  exact hout ((hpaints p v).mp hmem).1

end DrawDriver
end Painter
end VialQmk
