import Mathlib.Algebra.Group.Nat.Defs
import Mathlib.Logic.Function.Basic
import VialQmk.Lib.Dirty
import VialQmk.Lib.Layout
import VialQmk.Painter.Drawing

/-!
# Painter.Surface

A display in memory with 16 bits for each pixel (`qp_surface_common.c`, `qp_surface_rgb565.c`), and the rectangle in
which it has been changed since it was flushed.

* `Paints`: a change of the surface that marks each pixel it changes, and sets `is_dirty` if there is one.
* `streamPixdataRgb565_paints`: so does a stream of pixels, all of which are written inside the buffer or not at all.
* `init_some`: a surface is cleared as a whole if its size in bytes is an `int`.
-/

namespace VialQmk
namespace Painter

open Lib

structure SurfaceViewportData where
  viewportL : Nat
  viewportT : Nat
  viewportR : Nat
  viewportB : Nat
  pixdataX : Nat
  pixdataY : Nat

structure SurfaceDirtyData where
  isDirty : Bool
  l : Nat
  t : Nat
  r : Nat
  b : Nat

structure SurfacePainterDevice where
  u16buffer : Nat → UInt16
  viewport : SurfaceViewportData
  dirty : SurfaceDirtyData

def SurfaceViewportData.incrementPixdataLocation (v : SurfaceViewportData) : SurfaceViewportData :=
  let v := { v with pixdataX := (v.pixdataX + 1) % 65536 }
  let v :=
    if v.pixdataX > v.viewportR then { v with pixdataX := v.viewportL, pixdataY := (v.pixdataY + 1) % 65536 } else v
  if v.pixdataY > v.viewportB then { v with pixdataY := v.viewportT } else v

def SurfaceDirtyData.updateDirty (d : SurfaceDirtyData) (x y : Nat) : SurfaceDirtyData :=
  let d := if d.l > x then { d with l := x, isDirty := true } else d
  let d := if d.r < x then { d with r := x, isDirty := true } else d
  let d := if d.t > y then { d with t := y, isDirty := true } else d
  if d.b < y then { d with b := y, isDirty := true } else d

def intResult (n : Nat) : Option Nat := if n < 2 ^ 31 then some n else none

def surfaceRequiredBufferByteSize (w h bpp : Nat) : Option Nat := (intResult (w * h * bpp + 7)).map (· / 8)

/-- `panel_width` and `panel_height` of the surface. Its buffer has a cell for each pixel. -/
structure SurfaceGeometry where
  panelWidth : Nat
  panelHeight : Nat

namespace SurfaceGeometry

variable (g : SurfaceGeometry)

def cells : Nat := g.panelHeight * g.panelWidth

def cell (x y : Nat) : Nat := y * g.panelWidth + x

/-- The read of `u16buffer[y * w + x]`, none outside the buffer. -/
def readPixel (s : SurfacePainterDevice) (x y : Nat) : Option UInt16 := do
  let i ← intResult (g.cell x y)
  if i < g.cells then some (s.u16buffer i) else none

def writePixel (s : SurfacePainterDevice) (x y : Nat) (rgb565 : UInt16) : Option SurfacePainterDevice := do
  let i ← intResult (g.cell x y)
  if i < g.cells then some { s with u16buffer := Function.update s.u16buffer i rgb565 } else none

def setpixelRgb565 (s : SurfacePainterDevice) (x y : Nat) (rgb565 : UInt16) : Option SurfacePainterDevice :=
  if x ≥ g.panelWidth ∨ y ≥ g.panelHeight then some s
  else do
    let value ← g.readPixel s x y
    if value ≠ rgb565 then g.writePixel { s with dirty := s.dirty.updateDirty x y } x y rgb565 else some s

def appendPixelRgb565 (s : SurfacePainterDevice) (rgb565 : UInt16) : Option SurfacePainterDevice := do
  let s ← g.setpixelRgb565 s s.viewport.pixdataX s.viewport.pixdataY rgb565
  some { s with viewport := s.viewport.incrementPixdataLocation }

def streamPixdataRgb565 : SurfacePainterDevice → List UInt16 → Option SurfacePainterDevice
  | s, [] => some s
  | s, rgb565 :: data => do
    let s ← g.appendPixelRgb565 s rgb565
    streamPixdataRgb565 s data

/-- `memset` with 0 of this many bytes, none where they go beyond the buffer. -/
def clearBytes (bytes : Nat) (u16buffer : Nat → UInt16) : Option (Nat → UInt16) :=
  if bytes ≤ 2 * g.cells then some fun i => if 2 * i < bytes then 0 else u16buffer i else none

def init (s : SurfacePainterDevice) : Option SurfacePainterDevice := do
  let bytes ← surfaceRequiredBufferByteSize g.panelWidth g.panelHeight 16
  let u16buffer ← g.clearBytes bytes s.u16buffer
  some { s with
    u16buffer
    dirty := ⟨true, 0, 0, toUInt16 ((g.panelWidth : Int) - 1), toUInt16 ((g.panelHeight : Int) - 1)⟩ }

end SurfaceGeometry

namespace SurfacePainterDevice

variable (s : SurfacePainterDevice)

def flush : SurfacePainterDevice := { s with dirty := ⟨false, 65535, 65535, 0, 0⟩ }

def setViewport (left top right bottom : Nat) : SurfacePainterDevice :=
  { s with viewport := ⟨left, top, right, bottom, left, top⟩ }

end SurfacePainterDevice

namespace SurfaceDirtyData

def window (d : SurfaceDirtyData) : Window := ⟨d.l, d.t, d.r, d.b⟩

structure Proper (g : SurfaceGeometry) (d : SurfaceDirtyData) : Prop where
  isDirty : d.isDirty = true
  left : d.l ≤ d.r
  right : d.r < g.panelWidth
  top : d.t ≤ d.b
  bottom : d.b < g.panelHeight

def Clean (d : SurfaceDirtyData) : Prop := d = ⟨false, 65535, 65535, 0, 0⟩

def Sound (g : SurfaceGeometry) (d : SurfaceDirtyData) : Prop := d.Proper g ∨ d.Clean

variable {d : SurfaceDirtyData} {x y : Nat}

theorem updateDirty_eq (d : SurfaceDirtyData) (x y : Nat) :
    d.updateDirty x y =
      ⟨d.isDirty || decide (x < d.l ∨ d.r < x ∨ y < d.t ∨ d.b < y), min d.l x, min d.t y, max d.r x, max d.b y⟩ := by
  obtain ⟨isDirty, l, t, r, b⟩ := d
  have hl : (x < l ∧ min l x = x) ∨ (¬ x < l ∧ min l x = l) := by omega
  have hr : (r < x ∧ max r x = x) ∨ (¬ r < x ∧ max r x = r) := by omega
  have ht : (y < t ∧ min t y = y) ∨ (¬ y < t ∧ min t y = t) := by omega
  have hb : (b < y ∧ max b y = y) ∨ (¬ b < y ∧ max b y = b) := by omega
  rcases hl with ⟨hl, hl'⟩ | ⟨hl, hl'⟩ <;> rcases hr with ⟨hr, hr'⟩ | ⟨hr, hr'⟩ <;>
    rcases ht with ⟨ht, ht'⟩ | ⟨ht, ht'⟩ <;> rcases hb with ⟨hb, hb'⟩ | ⟨hb, hb'⟩ <;>
    simp only [updateDirty, gt_iff_lt, hl, hr, ht, hb, hl', hr', ht', hb', if_true, if_false, or_true, true_or,
      or_self, decide_true, decide_false, Bool.or_true, Bool.or_false]

theorem Sound.updateDirty {g : SurfaceGeometry} (h : d.Sound g) (hx : x < g.panelWidth) (hy : y < g.panelHeight)
    (hw : g.panelWidth ≤ 65535) : (d.updateDirty x y).Proper g := by
  rw [updateDirty_eq]
  rcases h with ⟨hdirty, hleft, hright, htop, hbottom⟩ | rfl
  · refine ⟨?_, ?_, ?_, ?_, ?_⟩
    · simp [hdirty]
    · show min d.l x ≤ max d.r x
      omega
    · show max d.r x < g.panelWidth
      omega
    · show min d.t y ≤ max d.b y
      omega
    · show max d.b y < g.panelHeight
      omega
  · refine ⟨?_, ?_, ?_, ?_, ?_⟩
    · show (false || decide (x < 65535 ∨ _)) = true
      rw [Bool.false_or, decide_eq_true_eq]
      exact .inl (by omega)
    · show min 65535 x ≤ max 0 x
      omega
    · show max 0 x < g.panelWidth
      omega
    · show min 65535 y ≤ max 0 y
      omega
    · show max 0 y < g.panelHeight
      omega

theorem updateDirty_has (d : SurfaceDirtyData) (x y : Nat) : (d.updateDirty x y).window.Has (x, y) := by
  rw [updateDirty_eq]
  exact ⟨⟨Nat.min_le_right .., Nat.le_max_right ..⟩, Nat.min_le_right .., Nat.le_max_right ..⟩

theorem updateDirty_mono {p : Nat × Nat} (h : d.window.Has p) : (d.updateDirty x y).window.Has p := by
  rw [updateDirty_eq]
  obtain ⟨⟨hl, hr⟩, ht, hb⟩ := h
  exact ⟨⟨Nat.le_trans (Nat.min_le_left ..) hl, Nat.le_trans hr (Nat.le_max_left ..)⟩,
    Nat.le_trans (Nat.min_le_left ..) ht, Nat.le_trans hb (Nat.le_max_left ..)⟩

theorem Clean.not_has (h : d.Clean) {p : Nat × Nat} (hp : p.1 < 65535) : ¬ d.window.Has p := by
  subst h
  intro hp'
  exact Nat.not_le_of_lt hp hp'.1.1

end SurfaceDirtyData

namespace SurfaceGeometry

/-- The surface has an area, and its size in bytes is an `int`. -/
structure Fits (g : SurfaceGeometry) : Prop where
  width_pos : 0 < g.panelWidth
  width_le : g.panelWidth ≤ 32767
  height_pos : 0 < g.panelHeight
  height_le : g.panelHeight ≤ 32767
  bytes : g.panelWidth * g.panelHeight * 16 + 7 < 2 ^ 31

abbrev Place (g : SurfaceGeometry) : Type := { p : Nat × Nat // p.1 < g.panelWidth ∧ p.2 < g.panelHeight }

variable (g : SurfaceGeometry)

def pixel (s : SurfacePainterDevice) (p : g.Place) : UInt16 := s.u16buffer (g.cell p.1.1 p.1.2)

def dirtyPixels : Dirty SurfacePainterDevice g.Place fun _ => UInt16 where
  value := g.pixel
  marked s p := decide (s.dirty.window.Has p.1)

def differing (s s' : SurfacePainterDevice) : Set g.Place := {p | g.pixel s p ≠ g.pixel s' p}

/-- Each pixel that changes is marked, and `is_dirty` is set where one changes. -/
structure Paints (s s' : SurfacePainterDevice) (changed : Set g.Place) : Prop where
  tracks : g.dirtyPixels.Tracks s s'
  sound : s'.dirty.Sound g
  has : ∀ p ∈ changed, s'.dirty.window.Has p.1
  isDirty : s'.dirty.isDirty = true ↔ s.dirty.isDirty = true ∨ changed.Nonempty

variable {g} {s s' s'' : SurfacePainterDevice} {x y : Nat} {changed changed' : Set g.Place}

theorem marked_eq (p : g.Place) : g.dirtyPixels.marked s p = true ↔ s.dirty.window.Has p.1 := decide_eq_true_iff

theorem Paints.refl (h : s.dirty.Sound g) : g.Paints s s ∅ where
  tracks := Dirty.Tracks.refl s
  sound := h
  has p hp := absurd hp (Set.notMem_empty p)
  isDirty := by simp

theorem Paints.trans (h : g.Paints s s' changed) (h' : g.Paints s' s'' changed') :
    g.Paints s s'' (changed ∪ changed') where
  tracks := h.tracks.trans h'.tracks
  sound := h'.sound
  has := by
    rintro p (hp | hp)
    · exact (marked_eq p).mp (h'.tracks.covers p ((marked_eq p).mpr (h.has p hp)))
    · exact h'.has p hp
  isDirty := by rw [h'.isDirty, h.isDirty, Set.union_nonempty, or_assoc]

theorem Paints.setViewport (h : g.Paints s s' changed) (v : SurfaceViewportData) :
    g.Paints s { s' with viewport := v } changed := ⟨⟨h.tracks.covers, h.tracks.agree⟩, h.sound, h.has, h.isDirty⟩

theorem cell_lt (hx : x < g.panelWidth) (hy : y < g.panelHeight) : g.cell x y < g.cells := index_lt hy hx

theorem cell_inj {p q : g.Place} (h : g.cell p.1.1 p.1.2 = g.cell q.1.1 q.1.2) : p = q := by
  obtain ⟨hy, hx⟩ := index_inj p.2.1 q.2.1 h
  exact Subtype.ext (Prod.ext hx hy)

theorem Fits.cells_lt (hg : g.Fits) : g.cells < 2 ^ 31 := by
  have h := hg.bytes
  rw [Nat.mul_comm g.panelWidth] at h
  rw [cells]
  omega

theorem intResult_cell (hg : g.Fits) (hx : x < g.panelWidth) (hy : y < g.panelHeight) :
    intResult (g.cell x y) = some (g.cell x y) := if_pos (Nat.lt_trans (cell_lt hx hy) hg.cells_lt)

theorem readPixel_eq (hg : g.Fits) (p : g.Place) : g.readPixel s p.1.1 p.1.2 = some (g.pixel s p) := by
  rw [readPixel, intResult_cell hg p.2.1 p.2.2]
  exact if_pos (cell_lt p.2.1 p.2.2)

theorem writePixel_eq (hg : g.Fits) (p : g.Place) (rgb565 : UInt16) :
    g.writePixel s p.1.1 p.1.2 rgb565 =
      some { s with u16buffer := Function.update s.u16buffer (g.cell p.1.1 p.1.2) rgb565 } := by
  rw [writePixel, intResult_cell hg p.2.1 p.2.2]
  exact if_pos (cell_lt p.2.1 p.2.2)

theorem paints_write (hg : g.Fits) (h : s.dirty.Sound g) (p : g.Place) {rgb565 : UInt16}
    (hne : g.pixel s p ≠ rgb565) {s' : SurfacePainterDevice}
    (hs' : s' =
      { s with
        u16buffer := Function.update s.u16buffer (g.cell p.1.1 p.1.2) rgb565
        dirty := s.dirty.updateDirty p.1.1 p.1.2 }) :
    g.Paints s s' (g.differing s s') := by
  have hother : ∀ q : g.Place, q ≠ p → g.pixel s' q = g.pixel s q := by
    intro q hq
    subst hs'
    exact Function.update_of_ne (fun heq => hq (cell_inj heq)) _ _
  have hself : g.pixel s' p = rgb565 := by
    subst hs'
    exact Function.update_self _ _ _
  have hmono : ∀ q : g.Place, s.dirty.window.Has q.1 → s'.dirty.window.Has q.1 := by
    intro q hq
    subst hs'
    exact SurfaceDirtyData.updateDirty_mono hq
  have hhas : s'.dirty.window.Has p.1 := by
    subst hs'
    exact SurfaceDirtyData.updateDirty_has s.dirty p.1.1 p.1.2
  have hproper : s'.dirty.Proper g := by
    have hw := hg.width_le
    subst hs'
    exact h.updateDirty p.2.1 p.2.2 (by omega)
  refine ⟨⟨?_, ?_⟩, .inl hproper, ?_, ?_⟩
  · intro q hq
    exact (marked_eq q).mpr (hmono q ((marked_eq q).mp hq))
  · intro q hq
    by_cases hqp : q = p
    · subst hqp
      rw [(marked_eq q).mpr hhas] at hq
      cases hq
    · exact (hother q hqp).symm
  · intro q hq
    by_cases hqp : q = p
    · rw [hqp]
      exact hhas
    · exact absurd (hother q hqp).symm hq
  · refine ⟨fun _ => .inr ⟨p, ?_⟩, fun _ => hproper.isDirty⟩
    show g.pixel s p ≠ g.pixel s' p
    rwa [hself]

theorem differing_self (s : SurfacePainterDevice) : g.differing s s = ∅ :=
  Set.eq_empty_of_forall_notMem fun _ hp => hp rfl

theorem setpixelRgb565_paints (hg : g.Fits) (h : s.dirty.Sound g) (x y : Nat) (rgb565 : UInt16) :
    ∃ s', g.setpixelRgb565 s x y rgb565 = some s' ∧ g.Paints s s' (g.differing s s') := by
  rw [setpixelRgb565]
  by_cases hoff : x ≥ g.panelWidth ∨ y ≥ g.panelHeight
  · rw [if_pos hoff]
    refine ⟨s, rfl, ?_⟩
    rw [differing_self]
    exact Paints.refl h
  · rw [if_neg hoff]
    let p : g.Place := ⟨(x, y), by omega, by omega⟩
    have hread : g.readPixel s x y = some (g.pixel s p) := readPixel_eq hg p
    rw [hread]
    by_cases hne : g.pixel s p ≠ rgb565
    · refine ⟨_, ?_, paints_write hg h p hne rfl⟩
      show (if g.pixel s p ≠ rgb565 then _ else _) = _
      rw [if_pos hne]
      exact writePixel_eq hg p rgb565
    · refine ⟨s, ?_, ?_⟩
      · show (if g.pixel s p ≠ rgb565 then _ else _) = _
        rw [if_neg hne]
      · rw [differing_self]
        exact Paints.refl h

theorem appendPixelRgb565_paints (hg : g.Fits) (h : s.dirty.Sound g) (rgb565 : UInt16) :
    ∃ s', g.appendPixelRgb565 s rgb565 = some s' ∧ g.Paints s s' (g.differing s s') := by
  obtain ⟨s', hset, hpaints⟩ := setpixelRgb565_paints hg h s.viewport.pixdataX s.viewport.pixdataY rgb565
  refine ⟨{ s' with viewport := s'.viewport.incrementPixdataLocation }, ?_, hpaints.setViewport _⟩
  rw [appendPixelRgb565, hset]
  rfl

variable (g) in
def changes : SurfacePainterDevice → List UInt16 → Set g.Place
  | _, [] => ∅
  | s, rgb565 :: data =>
    match g.appendPixelRgb565 s rgb565 with
    | none => ∅
    | some s' => g.differing s s' ∪ changes s' data

theorem streamPixdataRgb565_paints (hg : g.Fits) (h : s.dirty.Sound g) (data : List UInt16) :
    ∃ s', g.streamPixdataRgb565 s data = some s' ∧ g.Paints s s' (g.changes s data) := by
  induction data generalizing s with
  | nil => exact ⟨s, rfl, Paints.refl h⟩
  | cons rgb565 data ih =>
    obtain ⟨s₁, happend, hpaints⟩ := appendPixelRgb565_paints hg h rgb565
    obtain ⟨s₂, hstream, hpaints'⟩ := ih hpaints.sound
    refine ⟨s₂, ?_, ?_⟩
    · rw [streamPixdataRgb565, happend]
      exact hstream
    · simp only [changes, happend]
      exact hpaints.trans hpaints'

theorem Fits.right_eq (hg : g.Fits) : toUInt16 ((g.panelWidth : Int) - 1) = g.panelWidth - 1 := by
  have hpos := hg.width_pos
  have hle := hg.width_le
  rw [toUInt16]
  omega

theorem Fits.bottom_eq (hg : g.Fits) : toUInt16 ((g.panelHeight : Int) - 1) = g.panelHeight - 1 := by
  have hpos := hg.height_pos
  have hle := hg.height_le
  rw [toUInt16]
  omega

theorem init_some (hg : g.Fits) (s : SurfacePainterDevice) :
    g.init s =
      some { s with
        u16buffer := fun i => if i < g.cells then 0 else s.u16buffer i
        dirty := ⟨true, 0, 0, g.panelWidth - 1, g.panelHeight - 1⟩ } := by
  have hbytes : (g.panelWidth * g.panelHeight * 16 + 7) / 8 = 2 * g.cells := by
    rw [cells, Nat.mul_comm g.panelWidth]
    omega
  have hsize : surfaceRequiredBufferByteSize g.panelWidth g.panelHeight 16 = some (2 * g.cells) := by
    rw [surfaceRequiredBufferByteSize, intResult, if_pos hg.bytes, Option.map_some, hbytes]
  rw [init, hsize, hg.right_eq, hg.bottom_eq]
  simp [clearBytes]

theorem init_marks (hg : g.Fits) (s : SurfacePainterDevice) :
    ∃ s', g.init s = some s' ∧ s'.dirty.Proper g ∧ ∀ p : g.Place, s'.dirty.window.Has p.1 := by
  have hw := hg.width_pos
  have hh := hg.height_pos
  refine ⟨_, init_some hg s, ⟨rfl, Nat.zero_le _, ?_, Nat.zero_le _, ?_⟩, ?_⟩
  · show g.panelWidth - 1 < g.panelWidth
    omega
  · show g.panelHeight - 1 < g.panelHeight
    omega
  · intro p
    exact ⟨⟨Nat.zero_le _, Nat.le_sub_one_of_lt p.2.1⟩, Nat.zero_le _, Nat.le_sub_one_of_lt p.2.2⟩

theorem tracks_of_all (hall : ∀ p : g.Place, s'.dirty.window.Has p.1) : g.dirtyPixels.Tracks s s' where
  covers p _ := (marked_eq p).mpr (hall p)
  agree p hp := by
    rw [(marked_eq p).mpr (hall p)] at hp
    cases hp

end SurfaceGeometry
end Painter
end VialQmk
