import VialQmk.Painter.Surface

/-!
# Painter.SurfaceDraw

The copy of a surface to a display (`qp_surface_draw`), and what the display shows then.

* `places_eq`: the two loops of `rgb565_target_pixdata_transfer` go through a rectangle in the order of a viewport.
* `transferLoop_streams`: what a transfer has sent when it ends, with or without success.
* `surface_draws`: in a run of calls, what has changed is marked, and the display has the surface after each copy.
-/

namespace VialQmk
namespace Painter

open Lib

/-- What the functions ask of the target. `answer` says what each of the calls returns, by its number, and `taken`
how many of its pixels a `qp_pixdata` that fails has taken. -/
structure DrawTarget where
  panelWidth : Nat
  panelHeight : Nat
  width_lt : panelWidth < 65536
  height_lt : panelHeight < 65536
  nativeBitsPerPixel : Nat
  pixdataBufferSize : Nat
  buffer_pos : 0 < pixdataBufferSize
  buffer_mod : pixdataBufferSize % 16 = 0
  answer : Nat → Bool
  taken : Nat → Nat

/-- What the target shows, and the area that was set last with the number of pixels that have come to it. -/
structure TargetPanel where
  pixels : Nat × Nat → UInt16
  window : Window
  streamed : Nat
  calls : Nat

def TargetPanel.put (panel : TargetPanel) (rgb565 : UInt16) : TargetPanel :=
  { panel with
    pixels := Function.update panel.pixels (panel.window.pixel panel.streamed) rgb565
    streamed := panel.streamed + 1 }

def TargetPanel.stream (panel : TargetPanel) (data : List UInt16) : TargetPanel := data.foldl put panel

/-- The values of a `uint16_t` loop from `first` to `last`, none where it has no end. -/
def uint16Loop (first last : Nat) : Option (List Nat) :=
  if last = 65535 then none else some (List.range' first (last + 1 - first))

/-- The pixels through which the two loops of `rgb565_target_pixdata_transfer` go. -/
def places (l t r b : Nat) : Option (List (Nat × Nat)) := do
  let ys ← uint16Loop t b
  let xs ← uint16Loop l r
  some (ys.flatMap fun y => xs.map fun x => (x, y))

namespace DrawTarget

variable (target : DrawTarget)

def viewport (left top right bottom : Nat) (panel : TargetPanel) : Bool × TargetPanel :=
  (target.answer panel.calls,
    { panel with
      window := ⟨left % 65536, top % 65536, right % 65536, bottom % 65536⟩
      streamed := 0
      calls := panel.calls + 1 })

def pixdata (pixelData : List UInt16) (panel : TargetPanel) : Bool × TargetPanel :=
  let ok := target.answer panel.calls
  let arrived := if ok then pixelData else pixelData.take (target.taken panel.calls)
  (ok, { panel.stream arrived with calls := panel.calls + 1 })

def totalPixelCount : Nat := 8 * target.pixdataBufferSize / 16

/-- The write of `target_buffer[pixel_counter++]`, none outside the buffer. -/
def gather (gathered : List UInt16) (rgb565 : UInt16) : Option (List UInt16) :=
  if 2 * gathered.length + 2 ≤ target.pixdataBufferSize then some (gathered ++ [rgb565]) else none

/-- The loops of `rgb565_target_pixdata_transfer`, with the pixels that wait in the buffer. -/
def transferLoop (g : SurfaceGeometry) (s : SurfacePainterDevice) :
    List (Nat × Nat) → List UInt16 → TargetPanel → Option (Bool × TargetPanel)
  | [], gathered, panel => some (if gathered.length > 0 then target.pixdata gathered panel else (true, panel))
  | (x, y) :: rest, gathered, panel => do
    let rgb565 ← g.readPixel s x y
    let gathered ← target.gather gathered rgb565
    if gathered.length = target.totalPixelCount then
      if (target.pixdata gathered panel).1 then transferLoop g s rest [] (target.pixdata gathered panel).2
      else some (false, (target.pixdata gathered panel).2)
    else transferLoop g s rest gathered panel

def pixdataTransfer (g : SurfaceGeometry) (s : SurfacePainterDevice) (x y : Nat) (entireSurface : Bool)
    (panel : TargetPanel) : Option (Bool × TargetPanel) := do
  let l := if entireSurface then 0 else s.dirty.l
  let t := if entireSurface then 0 else s.dirty.t
  let r := if entireSurface then toUInt16 ((g.panelWidth : Int) - 1) else s.dirty.r
  let b := if entireSurface then toUInt16 ((g.panelHeight : Int) - 1) else s.dirty.b
  let (ok, panel) := target.viewport (x + l) (y + t) (x + r) (y + b) panel
  if ok then
    let places ← places l t r b
    target.transferLoop g s places [] panel
  else some (false, panel)

def surfaceDraw (g : SurfaceGeometry) (s : SurfacePainterDevice) (x y : Nat) (entireSurface : Bool)
    (panel : TargetPanel) : Option (Bool × SurfacePainterDevice × TargetPanel) :=
  if ¬ s.dirty.isDirty then some (true, s, panel)
  else if 16 ≠ target.nativeBitsPerPixel then some (false, s, panel)
  else do
    let (ok, panel) ← target.pixdataTransfer g s x y entireSurface panel
    if ok then some (true, s.flush, panel) else some (false, s, panel)

end DrawTarget

theorem flatMap_range_pixel (win : Window) {h : Nat} (hh : h ≤ win.height) :
    ((List.range h).flatMap fun j => (List.range win.width).map fun i => (win.left + i, win.top + j)) =
      (List.range (win.width * h)).map win.pixel := by
  induction h with
  | zero => simp
  | succ h ih =>
    rw [List.range_succ, List.flatMap_append, ih (Nat.le_of_succ_le hh), Nat.mul_succ, List.range_add, List.map_append,
      List.map_map]
    congr 1
    rw [List.flatMap_singleton]
    apply List.map_congr_left
    intro i hi
    have hi : i < win.width := List.mem_range.mp hi
    show _ = (win.left + (win.width * h + i) % win.width, win.top + (win.width * h + i) / win.width % win.height)
    rw [Nat.mul_add_mod, Nat.mod_eq_of_lt hi, Nat.mul_add_div win.width_pos, Nat.div_eq_of_lt hi, Nat.add_zero,
      Nat.mod_eq_of_lt hh]

theorem uint16Loop_eq {first last : Nat} (hle : first ≤ last) (hlast : last < 65535) :
    uint16Loop first last = some ((List.range (last - first + 1)).map (first + ·)) := by
  rw [uint16Loop, if_neg (Nat.ne_of_lt hlast), Nat.succ_sub hle, List.range'_eq_map_range]

theorem places_eq {win : Window} (hx : win.left ≤ win.right) (hy : win.top ≤ win.bottom) (hr : win.right < 65535)
    (hb : win.bottom < 65535) :
    places win.left win.top win.right win.bottom =
      some ((List.range (win.width * win.height)).map win.pixel) := by
  rw [places, uint16Loop_eq hx hr, uint16Loop_eq hy hb, ← flatMap_range_pixel win (Nat.le_refl _)]
  simp only [Option.bind_eq_bind, Option.bind_some, List.flatMap_map, List.map_map]
  rfl

theorem pixel_shift (win : Window) (x y i : Nat) :
    (⟨x + win.left, y + win.top, x + win.right, y + win.bottom⟩ : Window).pixel i =
      (x + (win.pixel i).1, y + (win.pixel i).2) := by
  have hw : (⟨x + win.left, y + win.top, x + win.right, y + win.bottom⟩ : Window).width = win.width := by
    rw [Window.width, Window.width, Nat.add_sub_add_left]
  have hh : (⟨x + win.left, y + win.top, x + win.right, y + win.bottom⟩ : Window).height = win.height := by
    rw [Window.height, Window.height, Nat.add_sub_add_left]
  rw [Window.pixel, hw, hh, Window.pixel, Nat.add_assoc, Nat.add_assoc]

namespace TargetPanel

variable {panel : TargetPanel} {f : Nat × Nat → UInt16}

theorem stream_append (panel : TargetPanel) (data data' : List UInt16) :
    panel.stream (data ++ data') = (panel.stream data).stream data' := List.foldl_append

theorem stream_calls (panel : TargetPanel) (n : Nat) (data : List UInt16) :
    (stream { panel with calls := n } data).pixels = (panel.stream data).pixels := by
  induction data generalizing panel with
  | nil => rfl
  | cons rgb565 data ih => exact ih (panel.put rgb565)

/-- The pixels of a stream are those of a picture, which the display shows as far as the stream goes. -/
theorem stream_pixels {data : List UInt16}
    (hdata : ∀ i v, data[i]? = some v → v = f (panel.window.pixel (panel.streamed + i))) (q : Nat × Nat) :
    ((panel.stream data).pixels q = panel.pixels q ∨ (panel.stream data).pixels q = f q) ∧
      ((∃ i < data.length, panel.window.pixel (panel.streamed + i) = q) → (panel.stream data).pixels q = f q) := by
  induction data generalizing panel with
  | nil => exact ⟨.inl rfl, fun ⟨_, hi, _⟩ => absurd hi (Nat.not_lt_zero _)⟩
  | cons rgb565 data ih =>
    have hself : rgb565 = f (panel.window.pixel panel.streamed) := hdata 0 rgb565 rfl
    have hput : (panel.put rgb565).pixels q = if q = panel.window.pixel panel.streamed then f q else panel.pixels q := by
      show Function.update panel.pixels _ rgb565 q = _
      rw [Function.update_apply]
      split
      · rename_i hq
        rw [hself, hq]
      · rfl
    have hrest : ∀ i v, data[i]? = some v →
        v = f ((panel.put rgb565).window.pixel ((panel.put rgb565).streamed + i)) := by
      intro i v hv
      have h := hdata (i + 1) v hv
      rwa [Nat.add_comm i 1, ← Nat.add_assoc] at h
    obtain ⟨hor, hin⟩ := ih hrest
    show (((panel.put rgb565).stream data).pixels q = _ ∨ ((panel.put rgb565).stream data).pixels q = _) ∧
      (_ → ((panel.put rgb565).stream data).pixels q = _)
    refine ⟨?_, ?_⟩
    · rcases hor with hor | hor
      · rw [hor, hput]
        split
        · exact .inr rfl
        · exact .inl rfl
      · exact .inr hor
    · rintro ⟨i, hi, hq⟩
      cases i with
      | zero =>
        rcases hor with hor | hor
        · rw [hor, hput]
          exact if_pos hq.symm
        · exact hor
      | succ i =>
        refine hin ⟨i, Nat.lt_of_succ_lt_succ hi, ?_⟩
        rw [← hq, Nat.add_comm i 1, ← Nat.add_assoc]
        rfl

end TargetPanel

namespace DrawTarget

variable {target : DrawTarget} {g : SurfaceGeometry} {s : SurfacePainterDevice} {panel : TargetPanel}

theorem totalPixelCount_pos (target : DrawTarget) : 0 < target.totalPixelCount := by
  have hpos := target.buffer_pos
  have hmod := target.buffer_mod
  rw [totalPixelCount]
  omega

theorem gather_eq {gathered : List UInt16} (h : gathered.length < target.totalPixelCount) (rgb565 : UInt16) :
    target.gather gathered rgb565 = some (gathered ++ [rgb565]) := by
  rw [totalPixelCount] at h
  rw [gather, if_pos (by omega)]

def pixelsAt (g : SurfaceGeometry) (s : SurfacePainterDevice) (ps : List (Nat × Nat)) : List UInt16 :=
  ps.map fun p => s.u16buffer (g.cell p.1 p.2)

/-- What has come to the target: a first part of the data, and all of it with success. -/
def Sends (panel : TargetPanel) (data : List UInt16) (result : Bool × TargetPanel) : Prop :=
  ∃ n, result.2.pixels = (panel.stream (data.take n)).pixels ∧ (result.1 = true → n = data.length)

theorem pixdata_sends (target : DrawTarget) (data : List UInt16) (panel : TargetPanel) :
    Sends panel data (target.pixdata data panel) := by
  by_cases hok : target.answer panel.calls = true
  · refine ⟨data.length, ?_, fun _ => rfl⟩
    rw [List.take_length]
    show (panel.stream (if target.answer panel.calls = true then data else _)).pixels = _
    rw [if_pos hok]
  · refine ⟨target.taken panel.calls, ?_, fun h => absurd h hok⟩
    show (panel.stream (if target.answer panel.calls = true then data else _)).pixels = _
    rw [if_neg hok]

variable {result : Bool × TargetPanel}

theorem Sends.append {data data' : List UInt16} (hok : target.answer panel.calls = true)
    (h : Sends (target.pixdata data panel).2 data' result) : Sends panel (data ++ data') result := by
  obtain ⟨n, hpixels, hall⟩ := h
  refine ⟨data.length + n, ?_, fun hr => ?_⟩
  · rw [hpixels, List.take_length_add_append, TargetPanel.stream_append]
    show (TargetPanel.stream { panel.stream (if target.answer panel.calls = true then data else _) with
      calls := panel.calls + 1 } (data'.take n)).pixels = _
    rw [if_pos hok, TargetPanel.stream_calls]
  · rw [hall hr, List.length_append]

theorem Sends.failed {data : List UInt16} (h : Sends panel data result) (hfail : ¬ result.1 = true)
    (data' : List UInt16) : Sends panel (data ++ data') result := by
  obtain ⟨n, hpixels, -⟩ := h
  refine ⟨min n data.length, ?_, fun hok => absurd hok hfail⟩
  have htake : data.take (min n data.length) = data.take n := by
    rw [List.take_eq_take_iff, Nat.min_assoc, Nat.min_self]
  rw [List.take_append_of_le_length (Nat.min_le_right ..), htake, hpixels]

theorem transferLoop_sends (hg : g.Fits) (ps : List (Nat × Nat))
    (hps : ∀ p ∈ ps, p.1 < g.panelWidth ∧ p.2 < g.panelHeight) (gathered : List UInt16)
    (hgathered : gathered.length < target.totalPixelCount) (panel : TargetPanel) :
    ∃ result, target.transferLoop g s ps gathered panel = some result ∧
      Sends panel (gathered ++ pixelsAt g s ps) result := by
  induction ps generalizing gathered panel with
  | nil =>
    refine ⟨_, rfl, ?_⟩
    rw [show pixelsAt g s [] = [] from rfl, List.append_nil]
    split
    · exact pixdata_sends target gathered panel
    · rename_i hempty
      rw [List.length_eq_zero_iff.mp (Nat.eq_zero_of_not_pos hempty)]
      exact ⟨0, rfl, fun _ => rfl⟩
  | cons p rest ih =>
    have hp := hps p List.mem_cons_self
    have hrest : ∀ q ∈ rest, q.1 < g.panelWidth ∧ q.2 < g.panelHeight := fun q hq =>
      hps q (List.mem_cons_of_mem p hq)
    have hread : g.readPixel s p.1 p.2 = some (s.u16buffer (g.cell p.1 p.2)) :=
      SurfaceGeometry.readPixel_eq hg ⟨p, hp⟩
    have hsplit : gathered ++ pixelsAt g s (p :: rest) =
        (gathered ++ [s.u16buffer (g.cell p.1 p.2)]) ++ pixelsAt g s rest := by
      rw [List.append_assoc]
      rfl
    rw [hsplit]
    simp only [transferLoop, hread, gather_eq hgathered, Option.bind_eq_bind, Option.bind_some]
    have hlength : (gathered ++ [s.u16buffer (g.cell p.1 p.2)]).length = gathered.length + 1 := List.length_append
    generalize gathered ++ [s.u16buffer (g.cell p.1 p.2)] = gathered' at hlength ⊢
    split
    · have hsent := pixdata_sends target gathered' panel
      split
      · rename_i hok
        obtain ⟨result, hloop, hsends⟩ := ih hrest [] target.totalPixelCount_pos (target.pixdata gathered' panel).2
        exact ⟨result, hloop, hsends.append hok⟩
      · rename_i hfail
        have hresult : (false, (target.pixdata gathered' panel).2) = target.pixdata gathered' panel :=
          Prod.ext (Bool.eq_false_iff.mpr hfail).symm rfl
        rw [hresult]
        exact ⟨_, rfl, hsent.failed hfail _⟩
    · rename_i hne
      exact ih hrest gathered' (by omega) panel

def shown (g : SurfaceGeometry) (panel : TargetPanel) (x y : Nat) (p : g.Place) : Option UInt16 :=
  some (panel.pixels (x + p.1.1, y + p.1.2))

def sentWindow (g : SurfaceGeometry) (s : SurfacePainterDevice) (entireSurface : Bool) : Window :=
  if entireSurface then ⟨0, 0, g.panelWidth - 1, g.panelHeight - 1⟩ else s.dirty.window

/-- What a transfer leaves on the target at the place of the surface, with and without success. -/
structure Transfers (g : SurfaceGeometry) (s : SurfacePainterDevice) (x y : Nat) (win : Window)
    (panel : TargetPanel) (result : Bool × TargetPanel) : Prop where
  sent : ∀ p : g.Place, shown g result.2 x y p = shown g panel x y p ∨ shown g result.2 x y p = some (g.pixel s p)
  all : result.1 = true → ∀ p : g.Place, win.Has p.1 → shown g result.2 x y p = some (g.pixel s p)

theorem pixdataTransfer_eq (hg : g.Fits) (x y : Nat) (entireSurface : Bool) (panel : TargetPanel) {win : Window}
    (hwin : sentWindow g s entireSurface = win) :
    target.pixdataTransfer g s x y entireSurface panel =
      let result := target.viewport (x + win.left) (y + win.top) (x + win.right) (y + win.bottom) panel
      if result.1 then (places win.left win.top win.right win.bottom).bind fun ps =>
        target.transferLoop g s ps [] result.2
      else some (false, result.2) := by
  subst hwin
  cases entireSurface with
  | true =>
    simp only [pixdataTransfer, if_true, hg.right_eq, hg.bottom_eq]
    rfl
  | false => rfl

theorem sentWindow_within (hg : g.Fits) (h : s.dirty.Proper g) (entireSurface : Bool) {win : Window}
    (hwin : sentWindow g s entireSurface = win) :
    (win.left ≤ win.right ∧ win.right < g.panelWidth) ∧ win.top ≤ win.bottom ∧ win.bottom < g.panelHeight := by
  subst hwin
  have hw := hg.width_pos
  have hh := hg.height_pos
  cases entireSurface with
  | true => exact ⟨⟨Nat.zero_le _, Nat.sub_one_lt_of_lt hw⟩, Nat.zero_le _, Nat.sub_one_lt_of_lt hh⟩
  | false => exact ⟨⟨h.left, h.right⟩, h.top, h.bottom⟩

theorem Sends.transfers {x y : Nat} {win : Window} (hx : win.left ≤ win.right) (hy : win.top ≤ win.bottom)
    (hstreamed : panel.streamed = 0)
    (hwindow : panel.window = ⟨x + win.left, y + win.top, x + win.right, y + win.bottom⟩)
    (h : Sends panel (pixelsAt g s ((List.range (win.width * win.height)).map win.pixel)) result) :
    Transfers g s x y win panel result := by
  obtain ⟨n, hpixels, hall⟩ := h
  let f : Nat × Nat → UInt16 := fun q => s.u16buffer (g.cell (q.1 - x) (q.2 - y))
  have hplace : ∀ i, panel.window.pixel (panel.streamed + i) = (x + (win.pixel i).1, y + (win.pixel i).2) := by
    intro i
    rw [hstreamed, Nat.zero_add, hwindow, pixel_shift]
  have hf : ∀ p : Nat × Nat, f (x + p.1, y + p.2) = s.u16buffer (g.cell p.1 p.2) := by
    intro p
    show s.u16buffer (g.cell (x + p.1 - x) (y + p.2 - y)) = _
    rw [Nat.add_sub_cancel_left, Nat.add_sub_cancel_left]
  have hlength : (pixelsAt g s ((List.range (win.width * win.height)).map win.pixel)).length =
      win.width * win.height := by
    simp [pixelsAt]
  have hdata : ∀ i v, ((pixelsAt g s ((List.range (win.width * win.height)).map win.pixel)).take n)[i]? = some v →
      v = f (panel.window.pixel (panel.streamed + i)) := by
    intro i v hv
    rw [List.getElem?_take] at hv
    split at hv
    · obtain ⟨hi, hv⟩ := List.getElem?_eq_some_iff.mp hv
      rw [hplace, hf, ← hv]
      simp [pixelsAt]
    · cases hv
  have hstream := TargetPanel.stream_pixels hdata
  refine ⟨fun p => ?_, fun hok p hp => ?_⟩
  · rcases (hstream (x + p.1.1, y + p.1.2)).1 with heq | heq
    · left
      rw [shown, hpixels, heq]
      rfl
    · right
      rw [shown, hpixels, heq, hf]
      rfl
  · obtain ⟨i, hi, hpi⟩ := List.mem_map.mp ((Window.mem_pixels hx hy p.1).mpr hp)
    rw [shown, hpixels, (hstream (x + p.1.1, y + p.1.2)).2 ⟨i, ?_, ?_⟩, hf]
    · rfl
    · rw [hall hok, List.take_length, hlength]
      exact List.mem_range.mp hi
    · rw [hplace, hpi]

theorem pixdataTransfer_transfers (hg : g.Fits) {x y : Nat} (hx : x + g.panelWidth ≤ target.panelWidth)
    (hy : y + g.panelHeight ≤ target.panelHeight) (h : s.dirty.Proper g) (entireSurface : Bool)
    (panel : TargetPanel) :
    ∃ result, target.pixdataTransfer g s x y entireSurface panel = some result ∧
      Transfers g s x y (sentWindow g s entireSurface) panel result := by
  obtain ⟨win, hwin⟩ : ∃ win, sentWindow g s entireSurface = win := ⟨_, rfl⟩
  obtain ⟨⟨hleft, hright⟩, htop, hbottom⟩ := sentWindow_within hg h entireSurface hwin
  have hw := hg.width_le
  have hh := hg.height_le
  have htw := target.width_lt
  have hth := target.height_lt
  rw [pixdataTransfer_eq hg x y entireSurface panel hwin, hwin]
  let panel' := (target.viewport (x + win.left) (y + win.top) (x + win.right) (y + win.bottom) panel).2
  by_cases hok : target.answer panel.calls = true
  · have hwindow : panel'.window = ⟨x + win.left, y + win.top, x + win.right, y + win.bottom⟩ := by
      show Window.mk ((x + win.left) % 65536) ((y + win.top) % 65536) ((x + win.right) % 65536)
        ((y + win.bottom) % 65536) = _
      rw [Nat.mod_eq_of_lt (by omega), Nat.mod_eq_of_lt (by omega), Nat.mod_eq_of_lt (by omega),
        Nat.mod_eq_of_lt (by omega)]
    have hps : ∀ p ∈ (List.range (win.width * win.height)).map win.pixel, p.1 < g.panelWidth ∧ p.2 < g.panelHeight := by
      intro p hp
      have hhas := (Window.mem_pixels hleft htop p).mp hp
      exact ⟨Nat.lt_of_le_of_lt hhas.1.2 hright, Nat.lt_of_le_of_lt hhas.2.2 hbottom⟩
    obtain ⟨result, hloop, hsends⟩ := transferLoop_sends (s := s) hg _ hps [] target.totalPixelCount_pos panel'
    refine ⟨result, ?_, ?_⟩
    · show (if target.answer panel.calls = true then _ else _) = _
      rw [if_pos hok, places_eq hleft htop (by omega) (by omega)]
      exact hloop
    · have htransfers := hsends.transfers hleft htop rfl hwindow
      exact ⟨htransfers.sent, htransfers.all⟩
  · refine ⟨(false, panel'), ?_, fun _ => .inl rfl, fun hfalse => absurd hfalse Bool.false_ne_true⟩
    show (if target.answer panel.calls = true then _ else _) = _
    rw [if_neg hok]

/-- What a copy does to the surface: it is flushed if all has been sent, and stays as it is if not. -/
theorem surfaceDraw_cases (hg : g.Fits) {x y : Nat} (hx : x + g.panelWidth ≤ target.panelWidth)
    (hy : y + g.panelHeight ≤ target.panelHeight) (h : s.dirty.Sound g) (entireSurface : Bool)
    (panel : TargetPanel) :
    ∃ ok s' panel', target.surfaceDraw g s x y entireSurface panel = some (ok, s', panel') ∧
      ((s.dirty.Clean ∧ s' = s ∧ panel' = panel) ∨
        (s.dirty.Proper g ∧ ok = true ∧ s' = s.flush ∧
          Transfers g s x y (sentWindow g s entireSurface) panel (true, panel')) ∨
        (s.dirty.Proper g ∧ ok = false ∧ s' = s ∧
          Transfers g s x y (sentWindow g s entireSurface) panel (false, panel'))) := by
  rcases h with hproper | hclean
  · rw [surfaceDraw, if_neg (not_not_intro hproper.isDirty)]
    by_cases hbpp : 16 ≠ target.nativeBitsPerPixel
    · rw [if_pos hbpp]
      exact ⟨false, s, panel, rfl, .inr (.inr ⟨hproper, rfl, rfl, fun p => .inl rfl, fun h => nomatch h⟩)⟩
    · rw [if_neg hbpp]
      obtain ⟨⟨ok, panel'⟩, htransfer, hsent⟩ := pixdataTransfer_transfers hg hx hy hproper entireSurface panel
      rw [htransfer]
      cases ok with
      | true => exact ⟨true, s.flush, panel', rfl, .inr (.inl ⟨hproper, rfl, rfl, hsent⟩)⟩
      | false => exact ⟨false, s, panel', rfl, .inr (.inr ⟨hproper, rfl, rfl, hsent⟩)⟩
  · have hdirty : ¬ s.dirty.isDirty = true := by
      rw [show s.dirty = _ from hclean]
      exact Bool.false_ne_true
    rw [surfaceDraw, if_pos hdirty]
    exact ⟨true, s, panel, rfl, .inl ⟨hclean, rfl, rfl⟩⟩

end DrawTarget

inductive SurfaceCall where
  | viewport (left top right bottom : Nat)
  | pixdata (pixelData : List UInt16)
  | clear
  | draw (x y : Nat) (entireSurface : Bool)

def SurfaceCall.At (x y : Nat) : SurfaceCall → Prop
  | draw x' y' _ => x' = x ∧ y' = y
  | _ => True

/-- The surface and the target, with the pixels that have changed since the surface was flushed, and if it has been
cleared since. -/
structure SurfaceRun (g : SurfaceGeometry) where
  surface : SurfacePainterDevice
  panel : TargetPanel
  changed : Set g.Place
  cleared : Bool

namespace SurfaceRun

variable {g : SurfaceGeometry} (target : DrawTarget)

/-- A call with its result, none where it goes beyond a buffer or has no end. -/
def step (w : SurfaceRun g) : SurfaceCall → Option (Bool × SurfaceRun g)
  | .viewport left top right bottom =>
    some (true, { w with surface := w.surface.setViewport left top right bottom })
  | .pixdata pixelData => do
    let surface ← g.streamPixdataRgb565 w.surface pixelData
    some (true, { w with surface, changed := w.changed ∪ g.changes w.surface pixelData })
  | .clear => do
    let surface ← g.init w.surface
    some (true, { w with surface, changed := w.changed ∪ g.differing w.surface surface, cleared := true })
  | .draw x y entireSurface => do
    let (ok, surface, panel) ← target.surfaceDraw g w.surface x y entireSurface w.panel
    if ok ∧ w.surface.dirty.isDirty then some (ok, ⟨surface, panel, ∅, false⟩)
    else some (ok, { w with surface, panel })

def run (w : SurfaceRun g) : List SurfaceCall → Option (SurfaceRun g)
  | [] => some w
  | call :: calls => do
    let (_, w) ← w.step target call
    run w calls

/-- The rectangle has what has changed, and the target shows the rest. -/
structure Sound (x y : Nat) (w : SurfaceRun g) : Prop where
  dirty : w.surface.dirty.Sound g
  has : ∀ p ∈ w.changed, w.surface.dirty.window.Has p.1
  isDirty : w.surface.dirty.isDirty = true ↔ w.changed.Nonempty ∨ w.cleared = true
  shown : g.dirtyPixels.ShownIn w.surface (DrawTarget.shown g w.panel x y)

section Step

variable {target} {x y : Nat} {w : SurfaceRun g}

theorem not_marked (hg : g.Fits) {s : SurfacePainterDevice} (h : s.dirty.Clean) (p : g.Place) :
    g.dirtyPixels.marked s p = false := by
  have hw := hg.width_le
  have hx := p.2.1
  exact decide_eq_false (h.not_has (by omega))

theorem Sound.of_flush {w' : SurfaceRun g} (hsurface : w'.surface = w.surface.flush) (hchanged : w'.changed = ∅)
    (hcleared : w'.cleared = false)
    (hshown : ∀ p, DrawTarget.shown g w'.panel x y p = some (g.pixel w.surface p)) : w'.Sound x y where
  dirty := .inr (congrArg SurfacePainterDevice.dirty hsurface)
  has p hp := absurd (hchanged ▸ hp) (Set.notMem_empty p)
  isDirty := by
    rw [hsurface, hchanged, hcleared]
    simp [SurfacePainterDevice.flush]
  shown p _ := by
    rw [hshown, hsurface]
    rfl

theorem Sound.draw (hg : g.Fits) (hx : x + g.panelWidth ≤ target.panelWidth)
    (hy : y + g.panelHeight ≤ target.panelHeight) (h : w.Sound x y) (entireSurface : Bool) :
    ∃ ok w', w.step target (.draw x y entireSurface) = some (ok, w') ∧ w'.Sound x y ∧
      (ok = true → ∀ p, DrawTarget.shown g w'.panel x y p = some (g.pixel w'.surface p)) := by
  obtain ⟨ok, s', panel', hdraw, hcases⟩ := target.surfaceDraw_cases hg hx hy h.dirty entireSurface w.panel
  rw [step, hdraw]
  rcases hcases with ⟨hclean, rfl, rfl⟩ | ⟨hproper, rfl, rfl, hsent⟩ | ⟨hproper, rfl, rfl, hsent⟩
  · have hdirty : ¬ (ok = true ∧ w.surface.dirty.isDirty = true) := by
      rw [show w.surface.dirty = _ from hclean]
      exact fun hand => Bool.false_ne_true hand.2
    refine ⟨ok, w, if_neg hdirty, h, fun _ p => ?_⟩
    exact h.shown p (not_marked hg hclean p)
  · have hresent := h.shown.resend hsent.sent
    have hall : ∀ p, DrawTarget.shown g panel' x y p = some (g.pixel w.surface p) := by
      refine hresent.all_sent fun p hp => ?_
      refine hsent.all rfl p ?_
      cases entireSurface with
      | true => exact ⟨⟨Nat.zero_le _, Nat.le_sub_one_of_lt p.2.1⟩, Nat.zero_le _, Nat.le_sub_one_of_lt p.2.2⟩
      | false => exact (SurfaceGeometry.marked_eq p).mp hp
    refine ⟨true, _, if_pos ⟨rfl, hproper.isDirty⟩, Sound.of_flush rfl rfl rfl hall, fun _ => hall⟩
  · refine ⟨false, { w with panel := panel' }, rfl, ?_, fun hfalse => absurd hfalse Bool.false_ne_true⟩
    exact ⟨h.dirty, h.has, h.isDirty, h.shown.resend hsent.sent⟩

theorem Sound.step (hg : g.Fits) (hx : x + g.panelWidth ≤ target.panelWidth)
    (hy : y + g.panelHeight ≤ target.panelHeight) (h : w.Sound x y) {call : SurfaceCall} (hat : call.At x y) :
    ∃ ok w', w.step target call = some (ok, w') ∧ w'.Sound x y := by
  cases call with
  | viewport left top right bottom =>
    exact ⟨_, _, rfl, h.dirty, h.has, h.isDirty, h.shown⟩
  | pixdata pixelData =>
    obtain ⟨s', hstream, hpaints⟩ := SurfaceGeometry.streamPixdataRgb565_paints hg h.dirty pixelData
    refine ⟨true, { w with surface := s', changed := w.changed ∪ g.changes w.surface pixelData }, ?_, ?_⟩
    · rw [SurfaceRun.step, hstream]
      rfl
    · refine ⟨hpaints.sound, ?_, ?_, h.shown.change hpaints.tracks⟩
      · rintro p (hp | hp)
        · have hmarked := (SurfaceGeometry.marked_eq p).mpr (h.has p hp)
          exact (SurfaceGeometry.marked_eq p).mp (hpaints.tracks.covers p hmarked)
        · exact hpaints.has p hp
      · rw [hpaints.isDirty, h.isDirty, Set.union_nonempty, or_right_comm]
  | clear =>
    obtain ⟨s', hinit, hproper, hall⟩ := SurfaceGeometry.init_marks hg w.surface
    refine ⟨true, { w with surface := s', changed := w.changed ∪ g.differing w.surface s', cleared := true }, ?_, ?_⟩
    · rw [SurfaceRun.step, hinit]
      rfl
    · refine ⟨.inl hproper, fun p _ => hall p, ?_, h.shown.change (SurfaceGeometry.tracks_of_all hall)⟩
      exact ⟨fun _ => .inr rfl, fun _ => hproper.isDirty⟩
  | draw x' y' entireSurface =>
    obtain ⟨rfl, rfl⟩ := hat
    obtain ⟨ok, w', hstep, hsound, -⟩ := h.draw hg hx hy entireSurface
    exact ⟨ok, w', hstep, hsound⟩

theorem Sound.run (hg : g.Fits) (hx : x + g.panelWidth ≤ target.panelWidth)
    (hy : y + g.panelHeight ≤ target.panelHeight) (h : w.Sound x y) {calls : List SurfaceCall}
    (hat : ∀ call ∈ calls, call.At x y) : ∃ w', w.run target calls = some w' ∧ w'.Sound x y := by
  induction calls generalizing w with
  | nil => exact ⟨w, rfl, h⟩
  | cons call calls ih =>
    obtain ⟨ok, w₁, hstep, hsound⟩ := h.step hg hx hy (hat call List.mem_cons_self)
    obtain ⟨w₂, hrun, hsound'⟩ := ih hsound fun call' hcall' => hat call' (List.mem_cons_of_mem call hcall')
    refine ⟨w₂, ?_, hsound'⟩
    rw [SurfaceRun.run, hstep]
    exact hrun

end Step

def start (s : SurfacePainterDevice) (panel : TargetPanel) : Option (SurfaceRun g) := do
  let surface ← g.init s
  some ⟨surface, panel, ∅, true⟩

/-- Of a surface that is copied to one place of a display. -/
theorem surface_draws (g : SurfaceGeometry) (hg : g.Fits) (target : DrawTarget) (x y : Nat)
    (hx : x + g.panelWidth ≤ target.panelWidth) (hy : y + g.panelHeight ≤ target.panelHeight)
    (s : SurfacePainterDevice) (panel : TargetPanel) (calls : List SurfaceCall) (hat : ∀ call ∈ calls, call.At x y) :
    ∃ w₀ : SurfaceRun g, start s panel = some w₀ ∧ ∃ w, w₀.run target calls = some w ∧
      (∀ p ∈ w.changed, w.surface.dirty.window.Has p.1) ∧
      (w.surface.dirty.isDirty = true ↔ w.changed.Nonempty ∨ w.cleared = true) ∧
      ∀ entireSurface, ∃ ok w', w.step target (.draw x y entireSurface) = some (ok, w') ∧
        (ok = true → ∀ p : g.Place, w'.panel.pixels (x + p.1.1, y + p.1.2) = g.pixel w'.surface p) := by
  obtain ⟨surface, hinit, hproper, hall⟩ := SurfaceGeometry.init_marks hg s
  have hstart : Sound x y (⟨surface, panel, ∅, true⟩ : SurfaceRun g) := by
    refine ⟨.inl hproper, fun p _ => hall p, ⟨fun _ => .inr rfl, fun _ => hproper.isDirty⟩, fun p hp => ?_⟩
    rw [(SurfaceGeometry.marked_eq p).mpr (hall p)] at hp
    cases hp
  obtain ⟨w, hrun, hsound⟩ := hstart.run hg hx hy hat
  refine ⟨⟨surface, panel, ∅, true⟩, ?_, w, hrun, hsound.has, hsound.isDirty, fun entireSurface => ?_⟩
  · rw [start, hinit]
    rfl
  · obtain ⟨ok, w', hstep, -, hshown⟩ := hsound.draw hg hx hy entireSurface
    exact ⟨ok, w', hstep, fun hok p => Option.some.inj (hshown hok p)⟩

def plainTarget : DrawTarget where
  panelWidth := 4
  panelHeight := 2
  width_lt := Nat.le_add_right 5 65531
  height_lt := Nat.le_add_right 3 65533
  nativeBitsPerPixel := 16
  pixdataBufferSize := 512
  buffer_pos := Nat.succ_pos 511
  buffer_mod := rfl
  answer _ := true
  taken _ := 0

def blankSurface : SurfacePainterDevice := ⟨fun _ => 0, ⟨0, 0, 0, 0, 0, 0⟩, ⟨false, 0, 0, 0, 0⟩⟩

def litPanel : TargetPanel := ⟨fun _ => 65535, ⟨0, 0, 0, 0⟩, 0, 0⟩

/-- Two pixels are changed, the viewport reaching off the surface, and copied to the panel. -/
theorem surface_draws_two :
    ∃ w₀ : SurfaceRun ⟨2, 1⟩, start blankSurface litPanel = some w₀ ∧
      ∃ w, w₀.run plainTarget [.draw 1 1 false, .viewport 0 0 3 0, .pixdata [7, 8]] = some w ∧
        (w.surface.dirty.isDirty = true ↔ w.changed.Nonempty ∨ w.cleared = true) ∧
        ∃ w', w.step plainTarget (.draw 1 1 false) = some (true, w') ∧
          w'.panel.pixels (1, 1) = 7 ∧ w'.panel.pixels (2, 1) = 8 := by
  have hg : (⟨2, 1⟩ : SurfaceGeometry).Fits := ⟨by decide, by decide, by decide, by decide, by decide⟩
  obtain ⟨w₀, hstart, w, hrun, -, hdirty, hdraw⟩ := surface_draws ⟨2, 1⟩ hg plainTarget 1 1 (by decide) (by decide)
    blankSurface litPanel [.draw 1 1 false, .viewport 0 0 3 0, .pixdata [7, 8]] (by simp [SurfaceCall.At])
  obtain ⟨ok, w', hstep, hshown⟩ := hdraw false
  have hbuffer : (((start (g := ⟨2, 1⟩) blankSurface litPanel).bind fun w₀ =>
      w₀.run plainTarget [.draw 1 1 false, .viewport 0 0 3 0, .pixdata [7, 8]]).bind fun w =>
      w.step plainTarget (.draw 1 1 false)).any (fun (ok, w') =>
        ok && w'.surface.u16buffer 0 == 7 && w'.surface.u16buffer 1 == 8) = true := by decide +kernel
  rw [hstart, Option.bind_some, hrun, Option.bind_some, hstep, Option.any_some, Bool.and_eq_true, Bool.and_eq_true,
    beq_iff_eq, beq_iff_eq] at hbuffer
  obtain ⟨⟨rfl, hfirst⟩, hsecond⟩ := hbuffer
  exact ⟨w₀, hstart, w, hrun, hdirty, w', hstep, (hshown rfl ⟨(0, 0), by decide⟩).trans hfirst,
    (hshown rfl ⟨(1, 0), by decide⟩).trans hsecond⟩

/-- A copy to another place does not show there, as nothing has changed since the first one. The loops over a surface
without width have no end, and the size of a very large one is not an `int`. -/
theorem surface_elsewhere_not_shown :
    (∃ s s' panel', SurfaceGeometry.init ⟨1, 1⟩ blankSurface = some s ∧
      plainTarget.surfaceDraw ⟨1, 1⟩ s 0 0 true litPanel = some (true, s', panel') ∧
      plainTarget.surfaceDraw ⟨1, 1⟩ s' 1 0 true panel' = some (true, s', panel') ∧
      panel'.pixels (1, 0) ≠ s'.u16buffer (SurfaceGeometry.cell ⟨1, 1⟩ 0 0)) ∧
      (∃ s, SurfaceGeometry.init ⟨0, 1⟩ blankSurface = some s ∧ plainTarget.surfaceDraw ⟨0, 1⟩ s 0 0 true litPanel = none) ∧
      SurfaceGeometry.init ⟨32767, 32767⟩ blankSurface = none := by
  refine ⟨⟨_, _, _, rfl, rfl, rfl, by decide⟩, ⟨_, rfl, rfl⟩, rfl⟩

end SurfaceRun

end Painter
end VialQmk
