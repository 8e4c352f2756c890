import VialQmk.Lib.Midpoint
import VialQmk.Painter.Ellipse

/-!
# Painter.Circle

`qp_circle` (`qp_draw_circle.c`), outlined or filled.

* `step_exact`: for a radius up to 8191 the variables of the loop stay in 16 bits, so that they are those of
  `Lib.Midpoint`.
* `circlePixels_iff`: a pass plots the images of its point on the axes and the diagonals.
* `qp_circle_near`: what is plotted is within one pixel of the circle, symmetric, and without gaps.
* `qp_circle_dot`: of the radius 0 the centre itself is plotted.
-/

namespace VialQmk
namespace Painter

open Lib

structure CircleState where
  xcalc : Int
  ycalc : Int
  err : Int
deriving DecidableEq, Repr

namespace CircleState

/-- The error term at the start, both shifts to the right rounding down. -/
def startErr (radius : Nat) : Int := (5 - (radius / 4 : Nat)) / 4

def start (radius : Nat) : CircleState := ⟨0, toInt16 radius, toInt16 (startErr radius)⟩

/-- A pass of the loop; the shift to the left is taken to double negative numbers, too. -/
def step (s : CircleState) : CircleState :=
  let xcalc := toInt16 (s.xcalc + 1)
  if s.err < 0 then ⟨xcalc, s.ycalc, toInt16 (s.err + (2 * xcalc + 1))⟩
  else
    let ycalc := toInt16 (s.ycalc - 1)
    ⟨xcalc, ycalc, toInt16 (s.err + (2 * (xcalc - ycalc) + 1))⟩

end CircleState

namespace DrawDriver

variable {ν : Type} (d : DrawDriver ν)

/-- Calls of `qp_internal_setpixel_impl`, up to the first that fails. -/
def setpixels : List (Nat × Nat) → Canvas ν → Bool × Canvas ν
  | [], c => (true, c)
  | p :: rest, c => andThen (d.setpixelImpl p.1 p.2 c) (setpixels rest)

def circleHelperImpl (centerx centery offsetx offsety : Nat) (filled : Bool) (c : Canvas ν) : Bool × Canvas ν :=
  let xpx := toUInt16 (toInt16 (toInt16 centerx + toInt16 offsetx))
  let xmx := toUInt16 (toInt16 (toInt16 centerx - toInt16 offsetx))
  let xpy := toUInt16 (toInt16 (toInt16 centerx + toInt16 offsety))
  let xmy := toUInt16 (toInt16 (toInt16 centerx - toInt16 offsety))
  let ypx := toUInt16 (toInt16 (toInt16 centery + toInt16 offsetx))
  let ymx := toUInt16 (toInt16 (toInt16 centery - toInt16 offsetx))
  let ypy := toUInt16 (toInt16 (toInt16 centery + toInt16 offsety))
  let ymy := toUInt16 (toInt16 (toInt16 centery - toInt16 offsety))
  if offsetx = 0 then
    andThen (d.setpixels [(centerx, ypy), (centerx, ymy)] c) fun c =>
      if filled then d.fillrectHelperImpl xpy centery xmy centery c
      else d.setpixels [(xpy, centery), (xmy, centery)] c
  else if offsetx = offsety then
    if filled then d.outline [⟨xpy, ypy, xmy, ypy⟩, ⟨xpy, ymy, xmy, ymy⟩] c
    else d.setpixels [(xpy, ypy), (xmy, ypy), (xpy, ymy), (xmy, ymy)] c
  else
    if filled then d.outline [⟨xpx, ypy, xmx, ypy⟩, ⟨xpx, ymy, xmx, ymy⟩, ⟨xpy, ypx, xmy, ypx⟩, ⟨xpy, ymx, xmy, ymx⟩] c
    else d.setpixels [(xpx, ypy), (xmx, ypy), (xpx, ymy), (xmx, ymy), (xpy, ypx), (xmy, ypx), (xpy, ymx), (xmy, ymx)] c

def drawCircle (x y : Nat) (filled : Bool) (s : CircleState) (c : Canvas ν) : Bool × Canvas ν :=
  d.circleHelperImpl x y (toUInt16 s.xcalc) (toUInt16 s.ycalc) filled c

/-- The loop of `qp_circle`; `none` where it has not ended yet. -/
def circleLoop (draw : CircleState → Canvas ν → Bool × Canvas ν) :
    Nat → CircleState → Canvas ν → Option (Bool × Canvas ν)
  | 0, _, _ => none
  | fuel + 1, s, c =>
    if s.xcalc < s.ycalc then
      if (draw s.step c).1 then circleLoop draw fuel s.step (draw s.step c).2 else some (false, (draw s.step c).2)
    else some (true, c)

def qpCircle (fuel : Nat) (x y radius : UInt16) (hsv : Hsv888) (filled : Bool) (c : Canvas ν) :
    Option (Bool × Canvas ν) :=
  if d.validateOk = false then some (false, c)
  else
    let c := d.fillPixdata (radius.toNat * 2 + 1) hsv c
    if d.commsStart = false then some (false, c)
    else
      let draw := d.drawCircle x.toNat y.toNat filled
      if (draw (.start radius.toNat) c).1 then
        circleLoop draw fuel (.start radius.toNat) (draw (.start radius.toNat) c).2
      else some (false, (draw (.start radius.toNat) c).2)

end DrawDriver

def Fits16 (v : Int) : Prop := -32768 ≤ v ∧ v < 32768

namespace CircleState

def exact (s : CircleState) : Midpoint := ⟨s.xcalc, s.ycalc, s.err⟩

structure StepFits (s : CircleState) : Prop where
  column : Fits16 (s.xcalc + 1)
  stay : s.err < 0 → Fits16 (2 * (s.xcalc + 1) + 1) ∧ Fits16 (s.err + (2 * (s.xcalc + 1) + 1))
  drop : ¬ s.err < 0 → Fits16 (s.ycalc - 1) ∧ Fits16 (2 * (s.xcalc + 1 - (s.ycalc - 1)) + 1) ∧
    Fits16 (s.err + (2 * (s.xcalc + 1 - (s.ycalc - 1)) + 1))

variable {radius : Nat}

theorem startErr_bounds (radius : Nat) : -2 * (radius : Int) ≤ startErr radius ∧ startErr radius ≤ 1 := by
  rw [startErr]
  omega

theorem start_exact (hradius : radius ≤ 8191) : (start radius).exact = ⟨0, radius, startErr radius⟩ := by
  obtain ⟨hlow, hup⟩ := startErr_bounds radius
  rw [exact, start]
  simp only
  rw [toInt16_eq (v := radius) (by omega) (by omega), toInt16_eq (v := startErr radius) (by omega) (by omega)]

theorem octant_start (hradius : radius ≤ 8191) : Octant radius (startErr radius) (start radius).exact := by
  obtain ⟨hlow, hup⟩ := startErr_bounds radius
  rw [start_exact hradius]
  exact .start (Int.natCast_nonneg radius) hlow hup

variable {s : CircleState}

theorem stepFits (hradius : radius ≤ 8191) (h : Octant radius (startErr radius) s.exact)
    (hguard : s.xcalc < s.ycalc) : StepFits s := by
  obtain ⟨hx, hxr, hy, hyr, -, -, hlow, hup, -, -, -⟩ := h
  simp only [exact] at *
  refine ⟨?_, fun hneg => ⟨?_, ?_⟩, fun hpos => ⟨?_, ?_, ?_⟩⟩ <;> rw [Fits16] <;> omega

theorem step_exact (h : StepFits s) : s.step.exact = s.exact.step := by
  have hcolumn := toInt16_eq h.column.1 h.column.2
  by_cases hneg : s.err < 0
  · obtain ⟨-, herr⟩ := h.stay hneg
    have hexact : s.exact.err < 0 := hneg
    rw [Midpoint.step_of_neg hexact, step, if_pos hneg, exact, hcolumn, toInt16_eq herr.1 herr.2]
    rfl
  · obtain ⟨hrow, -, herr⟩ := h.drop hneg
    have hexact : ¬ s.exact.err < 0 := hneg
    rw [Midpoint.step_of_nonneg hexact, step, if_neg hneg, exact, hcolumn]
    simp only
    rw [toInt16_eq hrow.1 hrow.2, toInt16_eq herr.1 herr.2]
    rfl

end CircleState

def pixelAt (x y : Nat) (p : Int × Int) : Nat × Nat := (toUInt16 (x + p.1), toUInt16 (y + p.2))

def offset (x y : Nat) (p : Nat × Nat) : Int × Int := (toInt16 (p.1 - x), toInt16 (p.2 - y))

theorem offset_pixelAt {x y : Nat} {p : Int × Int} (h1 : Fits16 p.1) (h2 : Fits16 p.2) :
    offset x y (pixelAt x y p) = p := by
  obtain ⟨hlow1, hup1⟩ := h1
  obtain ⟨hlow2, hup2⟩ := h2
  refine Prod.ext ?_ ?_
  · simp only [offset, pixelAt, toInt16, toUInt16]
    omega
  · simp only [offset, pixelAt, toInt16, toUInt16]
    omega

/-- The pixels that a pass sets where the circle is not filled. -/
def circlePixels (x y u v : Nat) : List (Nat × Nat) :=
  if u = 0 then [pixelAt x y (0, v), pixelAt x y (0, -v), pixelAt x y (v, 0), pixelAt x y (-v, 0)]
  else if u = v then [pixelAt x y (v, v), pixelAt x y (-v, v), pixelAt x y (v, -v), pixelAt x y (-v, -v)]
  else [pixelAt x y (u, v), pixelAt x y (-u, v), pixelAt x y (u, -v), pixelAt x y (-u, -v),
    pixelAt x y (v, u), pixelAt x y (-v, u), pixelAt x y (v, -u), pixelAt x y (-v, -u)]

theorem circlePixels_iff (x y u v : Nat) (p : Nat × Nat) :
    p ∈ circlePixels x y u v ↔ ∃ m ∈ mirrors ((u : Int), (v : Int)), p = pixelAt x y m := by
  simp only [mirrors, List.mem_cons, List.not_mem_nil, or_false, exists_eq_or_imp, exists_eq_left]
  rw [circlePixels]
  split
  · rename_i hzero
    subst hzero
    simp only [List.mem_cons, List.not_mem_nil, or_false, Int.natCast_zero, Int.neg_zero]
    tauto
  · split
    · rename_i heq
      subst heq
      simp only [List.mem_cons, List.not_mem_nil, or_false]
      tauto
    · simp only [List.mem_cons, List.not_mem_nil, or_false]

theorem toUInt16_of_lt {n : Nat} (h : n < 65536) : toUInt16 ((n : Int) + 0) = n := by
  rw [Int.add_zero]
  exact toUInt16_natCast h

namespace DrawDriver

variable {ν : Type} {d : DrawDriver ν}

theorem setpixels_append (ps qs : List (Nat × Nat)) (c : Canvas ν) :
    d.setpixels (ps ++ qs) c = andThen (d.setpixels ps c) (d.setpixels qs) := by
  induction ps generalizing c with
  | nil => rfl
  | cons p ps ih =>
    rw [List.cons_append, setpixels, setpixels]
    by_cases hok : (d.setpixelImpl p.1 p.2 c).1 = true
    · rw [andThen_ok hok, andThen_ok hok]
      exact ih _
    · simp only [andThen, if_neg hok]

theorem circleHelperImpl_outline {x y : Nat} (hx : x < 65536) (hy : y < 65536) (u v : Nat) (c : Canvas ν) :
    d.circleHelperImpl x y u v false c = d.setpixels (circlePixels x y u v) c := by
  have hadd : ∀ a b : Nat, toUInt16 (toInt16 (toInt16 a + toInt16 b)) = toUInt16 ((a : Int) + b) := by
    intro a b
    rw [place_add, toUInt16]
    omega
  simp only [circleHelperImpl, circlePixels, hadd, place_diff, Bool.false_eq_true, if_false]
  split
  · rename_i hzero
    subst hzero
    simp only [pixelAt, toUInt16_of_lt hx, toUInt16_of_lt hy, ← Int.sub_eq_add_neg]
    exact (setpixels_append _ [_, _] c).symm
  · split
    · simp only [pixelAt, ← Int.sub_eq_add_neg]
    · simp only [pixelAt, ← Int.sub_eq_add_neg]

theorem setpixels_ok (h : Succeeds d) (ps : List (Nat × Nat)) (c : Canvas ν) :
    (d.setpixels ps c).1 = true ∧ SendsArea c (d.setpixels ps c).2 (ps.map fun p => (p, c.buffer 0)) := by
  induction ps generalizing c with
  | nil => exact ⟨rfl, rfl, (List.append_nil _).symm⟩
  | cons p ps ih =>
    obtain ⟨hok, hbuffer, hsent⟩ := setpixelImpl_ok h p.1 p.2 c
    obtain ⟨hrest, hrestBuffer, hrestSent⟩ := ih (d.setpixelImpl p.1 p.2 c).2
    rw [setpixels, andThen_ok hok]
    refine ⟨hrest, hrestBuffer.trans hbuffer, ?_⟩
    rw [hrestSent, hsent, hbuffer, List.append_assoc]
    rfl

theorem outline_fst (h : Succeeds d) (wins : List Window) (c : Canvas ν) : (d.outline wins c).1 = true := by
  induction wins generalizing c with
  | nil => rfl
  | cons win rest ih =>
    rw [outline]
    simp only [fillrectHelperImpl_fst h, if_true]
    exact ih _

theorem circleHelperImpl_fst (h : Succeeds d) (x y u v : Nat) (filled : Bool) (c : Canvas ν) :
    (d.circleHelperImpl x y u v filled c).1 = true := by
  rw [circleHelperImpl]
  split
  · rw [andThen_ok (setpixels_ok h _ _).1]
    split
    · exact fillrectHelperImpl_fst h _ _ _ _ _
    · exact (setpixels_ok h _ _).1
  · split
    · split
      · exact outline_fst h _ _
      · exact (setpixels_ok h _ _).1
    · split
      · exact outline_fst h _ _
      · exact (setpixels_ok h _ _).1

def octantPixels (x y : Nat) (points : List (Int × Int)) : List (Nat × Nat) :=
  points.flatMap fun p => circlePixels x y p.1.toNat p.2.toNat

theorem octantPixels_cons (x y : Nat) (p : Int × Int) (points : List (Int × Int)) :
    octantPixels x y (p :: points) = octantPixels x y [p] ++ octantPixels x y points := by
  simp only [octantPixels, List.flatMap_cons, List.flatMap_nil, List.append_nil]

section Passes

variable {x y radius : Nat} {filled : Bool} {s : CircleState}

theorem drawCircle_ok (filled : Bool) (h : Succeeds d) (hx : x < 65536) (hy : y < 65536) (hradius : radius ≤ 8191)
    (hoctant : Octant radius (CircleState.startErr radius) s.exact) (c : Canvas ν) :
    (d.drawCircle x y filled s c).1 = true ∧ (filled = false →
      SendsArea c (d.drawCircle x y filled s c).2
        ((octantPixels x y [s.exact.point]).map fun p => (p, c.buffer 0))) := by
  refine ⟨circleHelperImpl_fst h .., ?_⟩
  rintro rfl
  have hcolumn : toUInt16 s.xcalc = s.xcalc.toNat := by
    have hlow : 0 ≤ s.xcalc := hoctant.x_nonneg
    have hup : s.xcalc ≤ radius := hoctant.x_le
    rw [toUInt16]
    omega
  have hrow : toUInt16 s.ycalc = s.ycalc.toNat := by
    have hlow : 0 ≤ s.ycalc := hoctant.y_nonneg
    have hup : s.ycalc ≤ radius := hoctant.y_le
    rw [toUInt16]
    omega
  rw [drawCircle, circleHelperImpl_outline hx hy, hcolumn, hrow, octantPixels, List.flatMap_singleton]
  exact (setpixels_ok h _ c).2

theorem circleLoop_ok (filled : Bool) (passes : Nat) (h : Succeeds d) (hx : x < 65536) (hy : y < 65536)
    (hradius : radius ≤ 8191)
    (hoctant : Octant radius (CircleState.startErr radius) s.exact) (hpasses : s.ycalc - s.xcalc ≤ passes)
    (c : Canvas ν) : ∃ c', circleLoop (d.drawCircle x y filled) (passes + 1) s c = some (true, c') ∧ (filled = false →
      SendsArea c c' ((octantPixels x y (Midpoint.octantFrom passes s.exact)).map fun p => (p, c.buffer 0))) := by
  induction passes generalizing s c with
  | zero =>
    have hends : ¬ s.xcalc < s.ycalc := by omega
    refine ⟨c, ?_, fun _ => ⟨rfl, (List.append_nil _).symm⟩⟩
    rw [circleLoop, if_neg hends]
  | succ passes ih =>
    by_cases hguard : s.xcalc < s.ycalc
    · have hexact := CircleState.step_exact (CircleState.stepFits hradius hoctant hguard)
      obtain ⟨hlow, hup⟩ := CircleState.startErr_bounds radius
      have hstep : Octant radius (CircleState.startErr radius) s.step.exact :=
        hexact ▸ hoctant.step hlow hup hguard
      have hcloser : s.step.ycalc - s.step.xcalc ≤ s.ycalc - s.xcalc - 1 := by
        have hmid := s.exact.step_closer
        rw [← hexact] at hmid
        exact hmid
      obtain ⟨hok, hdraw⟩ := drawCircle_ok filled h hx hy hradius hstep c
      obtain ⟨c', hloop, hrest⟩ := ih hstep (by omega) (d.drawCircle x y filled s.step c).2
      refine ⟨c', ?_, fun houtline => ?_⟩
      · rw [circleLoop, if_pos hguard, if_pos hok]
        exact hloop
      · obtain ⟨hbuffer, hsent⟩ := hdraw houtline
        obtain ⟨hrestBuffer, hrestSent⟩ := hrest houtline
        have hguard' : s.exact.x < s.exact.y := hguard
        refine ⟨hrestBuffer.trans hbuffer, ?_⟩
        rw [hrestSent, hsent, hbuffer, Midpoint.octantFrom, if_pos hguard', hexact, List.append_assoc,
          ← List.map_append, ← octantPixels_cons]
    · refine ⟨c, ?_, fun _ => ⟨rfl, ?_⟩⟩
      · rw [circleLoop, if_neg hguard]
      · have hguard' : ¬ s.exact.x < s.exact.y := hguard
        rw [Midpoint.octantFrom, if_neg hguard']
        exact (List.append_nil _).symm

end Passes

end DrawDriver

/-- Every pixel of the list is within one pixel of the circle. -/
def WithinPixel {ν : Type} (x y : UInt16) (radius : Nat) (sent : List ((Nat × Nat) × ν)) : Prop :=
  ∀ e ∈ sent, NearCircle radius (offset x.toNat y.toNat e.1)

/-- The pixels are those of an octant without gaps, from the axis to the diagonal, and of its images. -/
structure Closed {ν : Type} (x y : UInt16) (radius : Nat) (sent : List ((Nat × Nat) × ν)) : Prop where
  symmetric : ∀ e ∈ sent, ∀ m ∈ mirrors (offset x.toNat y.toNat e.1), ∃ e' ∈ sent, offset x.toNat y.toNat e'.1 = m
  octant : ∃ points : List (Int × Int), points.head? = some (0, (radius : Int)) ∧ points.IsChain Adjacent ∧
    (∃ p ∈ points, p.2 ≤ p.1) ∧
    ∀ o, (∃ e ∈ sent, offset x.toNat y.toNat e.1 = o) ↔ ∃ p ∈ points, o ∈ mirrors p

/-- Neither the start nor any pass that the loop comes to leaves 16 bits, and the sums for the pixels do not where
the radius has room about the centre. -/
structure LoopFits (radius : Nat) : Prop where
  start : Fits16 radius ∧ Fits16 (CircleState.startErr radius)
  pass : ∀ n, (∀ j ≤ n, (CircleState.step^[j] (.start radius)).xcalc < (CircleState.step^[j] (.start radius)).ycalc) →
    (CircleState.step^[n] (.start radius)).StepFits
  drawn : ∀ n, (∀ j < n, (CircleState.step^[j] (.start radius)).xcalc < (CircleState.step^[j] (.start radius)).ycalc) →
    ∀ center : UInt16, Fits16 (toInt16 center.toNat - radius) → Fits16 (toInt16 center.toNat + radius) →
      ∀ u, u = (CircleState.step^[n] (.start radius)).xcalc ∨ u = (CircleState.step^[n] (.start radius)).ycalc →
        Fits16 (toInt16 center.toNat - u) ∧ Fits16 (toInt16 center.toNat + u)

namespace CircleState

theorem octant_iterate {radius : Nat} (hradius : radius ≤ 8191) {n : Nat}
    (hguard : ∀ j < n, (step^[j] (start radius)).xcalc < (step^[j] (start radius)).ycalc) :
    Octant radius (startErr radius) (step^[n] (start radius)).exact := by
  induction n with
  | zero => exact octant_start hradius
  | succ n ih =>
    have hlast := ih fun j hj => hguard j (by omega)
    obtain ⟨hlow, hup⟩ := startErr_bounds radius
    rw [Function.iterate_succ_apply', step_exact (stepFits hradius hlast (hguard n (by omega)))]
    exact hlast.step hlow hup (hguard n (by omega))

theorem loopFits {radius : Nat} (hradius : radius ≤ 8191) : LoopFits radius where
  start := by
    obtain ⟨hlow, hup⟩ := startErr_bounds radius
    refine ⟨⟨?_, ?_⟩, ?_, ?_⟩ <;> omega
  pass n hguard := stepFits hradius (octant_iterate hradius fun j hj => hguard j (by omega)) (hguard n (Nat.le_refl n))
  drawn n hguard center hlow hup u hu := by
    obtain ⟨hx, hxr, hy, hyr, -⟩ := octant_iterate hradius hguard
    simp only [exact] at hx hxr hy hyr
    rw [Fits16] at *
    rw [Fits16]
    rcases hu with rfl | rfl <;> omega

end CircleState

namespace DrawDriver

variable {ν : Type} {d : DrawDriver ν} {x y : UInt16}

def octantPoints (radius : Nat) : List (Int × Int) :=
  (0, (radius : Int)) :: Midpoint.octantFrom radius ⟨0, radius, CircleState.startErr radius⟩

theorem mem_octantPoints {radius : Nat} {p : Int × Int} (hp : p ∈ octantPoints radius) :
    ∃ s, Octant radius (CircleState.startErr radius) s ∧ p = s.point := by
  obtain ⟨hlow, hup⟩ := CircleState.startErr_bounds radius
  have hstart := Octant.start (Int.natCast_nonneg radius) hlow hup
  rcases List.mem_cons.mp hp with rfl | hp
  · exact ⟨_, hstart, rfl⟩
  · exact Midpoint.octantFrom_all (fun s hs hguard => hs.step hlow hup hguard) hstart p hp

theorem qpCircle_ok (h : Succeeds d) {radius : UInt16} (hradius : radius.toNat ≤ 8191) (hsv : Hsv888) (filled : Bool)
    (c : Canvas ν) : ∃ fuel c', d.qpCircle fuel x y radius hsv filled c.clean = some (true, c') ∧ (filled = false →
      c'.sent = (octantPixels x.toNat y.toNat (octantPoints radius.toNat)).map fun p => (p, d.paletteConvert hsv)) := by
  have hstart := CircleState.octant_start hradius
  have hx := x.toNat_lt
  have hy := y.toNat_lt
  have hcolour : (d.fillPixdata (radius.toNat * 2 + 1) hsv c.clean).buffer 0 = d.paletteConvert hsv := by
    have hpos := d.numPixelsInBuffer_pos
    rw [fillPixdata_eq]
    exact if_pos (by omega)
  have hclean : (d.fillPixdata (radius.toNat * 2 + 1) hsv c.clean).sent = [] := by
    rw [fillPixdata_eq]
    rfl
  obtain ⟨hok, hfirst⟩ := drawCircle_ok filled h hx hy hradius hstart
    (d.fillPixdata (radius.toNat * 2 + 1) hsv c.clean)
  obtain ⟨c', hloop, hrest⟩ := circleLoop_ok filled radius.toNat h hx hy hradius hstart
    (by
      have hxcalc : 0 ≤ (CircleState.start radius.toNat).xcalc := hstart.x_nonneg
      have hycalc : (CircleState.start radius.toNat).ycalc ≤ radius.toNat := hstart.y_le
      omega) (d.drawCircle x.toNat y.toNat filled (.start radius.toNat)
      (d.fillPixdata (radius.toNat * 2 + 1) hsv c.clean)).2
  refine ⟨radius.toNat + 1, c', ?_, fun houtline => ?_⟩
  · rw [qpCircle]
    simp only [h.validateOk, h.commsStart, Bool.true_eq_false, if_false, hok, if_true]
    exact hloop
  · obtain ⟨hbuffer, hsent⟩ := hfirst houtline
    obtain ⟨-, hrestSent⟩ := hrest houtline
    rw [hrestSent, hsent, hbuffer, hcolour, hclean, List.nil_append, CircleState.start_exact hradius, octantPoints,
      octantPixels_cons, List.map_append]
    rfl

theorem offsets_iff {radius : UInt16} (hradius : radius.toNat ≤ 8191) (colour : ν) (o : Int × Int) :
    (∃ e ∈ (octantPixels x.toNat y.toNat (octantPoints radius.toNat)).map fun p => (p, colour),
      offset x.toNat y.toNat e.1 = o) ↔ ∃ p ∈ octantPoints radius.toNat, o ∈ mirrors p := by
  have hpoint : ∀ p ∈ octantPoints radius.toNat, ((p.1.toNat : Int), (p.2.toNat : Int)) = p ∧
      ∀ m ∈ mirrors p, offset x.toNat y.toNat (pixelAt x.toNat y.toNat m) = m := by
    intro p hp
    obtain ⟨s, ⟨hx, hxr, hy, hyr, -⟩, rfl⟩ := mem_octantPoints hp
    refine ⟨Prod.ext (Int.toNat_of_nonneg hx) (Int.toNat_of_nonneg hy), fun m hm => ?_⟩
    rw [mem_mirrors] at hm
    simp only [Midpoint.point] at hm
    apply offset_pixelAt <;> rw [Fits16] <;> omega
  constructor
  · rintro ⟨e, he, rfl⟩
    obtain ⟨q, hq, rfl⟩ := List.mem_map.mp he
    obtain ⟨p, hp, hq⟩ := List.mem_flatMap.mp hq
    obtain ⟨m, hm, rfl⟩ := (circlePixels_iff _ _ _ _ q).mp hq
    obtain ⟨hcast, hoffset⟩ := hpoint p hp
    rw [hcast] at hm
    exact ⟨p, hp, (hoffset m hm).symm ▸ hm⟩
  · rintro ⟨p, hp, ho⟩
    obtain ⟨hcast, hoffset⟩ := hpoint p hp
    refine ⟨(pixelAt x.toNat y.toNat o, colour), List.mem_map.mpr ⟨_, List.mem_flatMap.mpr ⟨p, hp, ?_⟩, rfl⟩,
      hoffset o ho⟩
    rw [circlePixels_iff, hcast]
    exact ⟨o, ho, rfl⟩

end DrawDriver

open DrawDriver in
/-- A circle of a radius up to 8191 ends with `true`, and nothing that its loop computes leaves 16 bits. Its outline
has no gaps, and is within one pixel of the circle if the radius is not 0. -/
theorem qp_circle_near {ν : Type} (d : DrawDriver ν) (h : Succeeds d) (x y radius : UInt16)
    (hradius : radius.toNat ≤ 8191) (hsv : Hsv888) (filled : Bool) (c : Canvas ν) :
    LoopFits radius.toNat ∧
      ∃ fuel c', d.qpCircle fuel x y radius hsv filled c.clean = some (true, c') ∧ (filled = false →
        Closed x y radius.toNat c'.sent ∧ (radius ≠ 0 → WithinPixel x y radius.toNat c'.sent)) := by
  obtain ⟨fuel, c', hrun, hsent⟩ := qpCircle_ok (x := x) (y := y) h hradius hsv filled c
  refine ⟨CircleState.loopFits hradius, fuel, c', hrun, fun houtline => ?_⟩
  have hoffsets := @offsets_iff ν x y radius hradius (d.paletteConvert hsv)
  rw [hsent houtline]
  refine ⟨⟨fun e he m hm => ?_, octantPoints radius.toNat, rfl, ?_, ?_, hoffsets⟩, fun hne e he => ?_⟩
  · obtain ⟨p, hp, ho⟩ := (hoffsets _).mp ⟨e, he, rfl⟩
    exact (hoffsets m).mpr ⟨p, hp, mirrors_trans ho hm⟩
  · exact Midpoint.octantFrom_chain radius.toNat ⟨0, radius.toNat, CircleState.startErr radius.toNat⟩
  · exact Midpoint.octantFrom_last (s := ⟨0, radius.toNat, CircleState.startErr radius.toNat⟩) (by simp only; omega)
  · obtain ⟨p, hp, ho⟩ := (hoffsets _).mp ⟨e, he, rfl⟩
    obtain ⟨s, hs, rfl⟩ := mem_octantPoints hp
    have hpos : 0 < radius.toNat := Nat.pos_of_ne_zero fun hzero => hne (UInt16.toNat_inj.mp hzero)
    exact (hs.near (Int.natCast_pos.mpr hpos)).mirror ho

open DrawDriver in
theorem qp_circle_near_three :
    LoopFits (3 : UInt16).toNat ∧
      ∃ fuel c', plainDriver.qpCircle fuel 10 10 3 ⟨0, 0, 255⟩ false blankCanvas.clean = some (true, c') ∧
        (false = false → Closed 10 10 (3 : UInt16).toNat c'.sent ∧
          ((3 : UInt16) ≠ 0 → WithinPixel 10 10 (3 : UInt16).toNat c'.sent)) :=
  qp_circle_near plainDriver plainDriver_succeeds 10 10 3 (by decide) ⟨0, 0, 255⟩ false blankCanvas

open DrawDriver in
/-- Of the radius 0 the centre is set, which is nearer to itself than `radius - 1` to the square. -/
theorem qp_circle_dot : ¬ ∀ radius : UInt16, radius.toNat ≤ 8191 →
    ∃ fuel c', plainDriver.qpCircle fuel 10 10 radius ⟨0, 0, 255⟩ false blankCanvas.clean = some (true, c') ∧
      WithinPixel 10 10 radius.toNat c'.sent := by
  intro hall
  obtain ⟨fuel, c', hrun, hwithin⟩ := hall 0 (by decide)
  have hcentre : ∃ e ∈ c'.sent, e.1 = (10, 10) := by
    cases fuel with
    | zero => exact absurd hrun.symm (Option.some_ne_none _)
    | succ fuel =>
      cases hrun
      exact ⟨((10, 10), ⟨0, 0, 255⟩), List.mem_cons_self, rfl⟩
  obtain ⟨e, he, hpixel⟩ := hcentre
  have hnear := (hwithin e he).low
  rw [hpixel] at hnear
  exact absurd hnear (by decide)

end Painter
end VialQmk
