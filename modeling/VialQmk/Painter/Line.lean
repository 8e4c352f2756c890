import Mathlib.Data.Nat.Find
import VialQmk.Lib.DigitalLine
import VialQmk.Painter.Rect

/-!
# Painter.Line

`qp_line` (`qp_draw_core.c`): a line between two points, by an error that is kept in 16 bits.

* `lineLoop_sent`, `lineLoop_ends`: the pixels of the states that the loop goes through.
* `flat_step`, `steep_step`: a step follows the line while twice the error fits.
* `qp_line_draws_iff`: the line is drawn just where it always fits.
-/

namespace VialQmk
namespace Painter

open Lib.DigitalLine

/-! ## The code -/

structure LineParams where
  x1 : Nat
  y1 : Nat
  slopex : Int
  slopey : Int
  dx : Int
  dy : Int
deriving DecidableEq, Repr

structure LineState where
  x : Int
  y : Int
  e : Int
deriving DecidableEq, Repr

def lineParams (x0 y0 x1 y1 : Nat) : LineParams where
  x1 := x1
  y1 := y1
  slopex := if toInt16 x0 < toInt16 x1 then 1 else -1
  slopey := if toInt16 y0 < toInt16 y1 then 1 else -1
  dx := toInt16 (toInt16 x1 - toInt16 x0).natAbs
  dy := toInt16 (-(toInt16 y1 - toInt16 y0).natAbs)

def lineStart (x0 y0 x1 y1 : Nat) : LineState where
  x := toInt16 x0
  y := toInt16 y0
  e := toInt16 ((lineParams x0 y0 x1 y1).dx + (lineParams x0 y0 x1 y1).dy)

def LineParams.AtEnd (p : LineParams) (s : LineState) : Prop := s.x = p.x1 ∧ s.y = p.y1
deriving Decidable

def lineStep (p : LineParams) (s : LineState) : LineState :=
  let e2 := toInt16 (2 * s.e)
  let s1 : LineState :=
    if e2 ≥ p.dy then ⟨toInt16 (s.x + p.slopex), s.y, toInt16 (s.e + p.dy)⟩ else s
  if e2 ≤ p.dx then ⟨s1.x, toInt16 (s1.y + p.slopey), toInt16 (s1.e + p.dx)⟩ else s1

def LineState.point (s : LineState) : Nat × Nat := (toUInt16 s.x, toUInt16 s.y)

namespace DrawDriver

variable {ν : Type} (d : DrawDriver ν)

/-- The loop of `qp_line`: if all pixels were set, and the state that it ends in. -/
def lineLoop (p : LineParams) : Nat → LineState → Canvas ν → Option (Bool × LineState × Canvas ν)
  | 0, _, _ => none
  | fuel + 1, s, c =>
    if p.AtEnd s then some (true, s, c)
    else if (d.setpixelImpl s.point.1 s.point.2 c).1 then
      lineLoop p fuel (lineStep p s) (d.setpixelImpl s.point.1 s.point.2 c).2
    else some (false, s, (d.setpixelImpl s.point.1 s.point.2 c).2)

def qpLine (fuel : Nat) (x0 y0 x1 y1 : UInt16) (hsv : Hsv888) (c : Canvas ν) : Option (Bool × Canvas ν) :=
  if x0 = x1 ∨ y0 = y1 then some (d.qpRect x0 y0 x1 y1 hsv true c)
  else if d.validateOk = false then some (false, c)
  else if d.commsStart = false then some (false, c)
  else
    (d.lineLoop (lineParams x0.toNat y0.toNat x1.toNat y1.toNat) fuel
      (lineStart x0.toNat y0.toNat x1.toNat y1.toNat) (d.fillPixdata 1 hsv c)).map fun ended =>
        let last := d.setpixelImpl ended.2.1.point.1 ended.2.1.point.2 ended.2.2
        (ended.1 && last.1, last.2)

/-! ## The loop -/

variable {d} {p : LineParams}

theorem lineLoop_sent (h : Succeeds d) {fuel : Nat} {s s' : LineState} {c c' : Canvas ν} {ret : Bool}
    (hloop : d.lineLoop p fuel s c = some (ret, s', c')) :
    ret = true ∧ ∃ n, s' = (lineStep p)^[n] s ∧ (∀ j < n, ¬p.AtEnd ((lineStep p)^[j] s)) ∧ p.AtEnd s' ∧
      SendsArea c c' ((List.range n).map fun j => (((lineStep p)^[j] s).point, c.buffer 0)) := by
  induction fuel generalizing s c with
  | zero => exact absurd hloop.symm (Option.some_ne_none _)
  | succ fuel ih =>
    rw [lineLoop] at hloop
    split at hloop
    · rename_i hend
      obtain ⟨rfl, rfl, rfl⟩ : ret = true ∧ s' = s ∧ c' = c := by simpa [eq_comm] using hloop
      exact ⟨rfl, 0, rfl, fun j hj => absurd hj (Nat.not_lt_zero j), hend, rfl, by simp⟩
    · rename_i hgo
      obtain ⟨hok, hbuffer, hsent⟩ := setpixelImpl_ok h s.point.1 s.point.2 c
      rw [if_pos hok] at hloop
      obtain ⟨hret, n, hs', hbefore, hend, hrest, hrestSent⟩ := ih hloop
      refine ⟨hret, n + 1, hs', ?_, hend, hrest.trans hbuffer, ?_⟩
      · intro j hj
        cases j with
        | zero => exact hgo
        | succ j => exact hbefore j (Nat.lt_of_succ_lt_succ hj)
      · rw [hrestSent, hsent, hbuffer, List.append_assoc, List.range_succ_eq_map, List.map_cons, List.map_map]
        rfl

theorem lineLoop_ends (h : Succeeds d) {n : Nat} {s : LineState} (hend : p.AtEnd ((lineStep p)^[n] s))
    (c : Canvas ν) : ∃ result, d.lineLoop p (n + 1) s c = some result := by
  induction n generalizing s c with
  | zero =>
    have hs : p.AtEnd s := hend
    exact ⟨(true, s, c), by rw [lineLoop, if_pos hs]⟩
  | succ n ih =>
    rw [lineLoop]
    split
    · exact ⟨_, rfl⟩
    · rw [if_pos (setpixelImpl_ok h _ _ c).1]
      exact ih hend _

end DrawDriver

/-! ## Digital lines -/

def span (a b : Nat) : Nat := (a - b) + (b - a)

def toward (a b k : Nat) : Nat := if a < b then a + k else a - k

def Touches (p q : Nat × Nat) : Prop := ((p.1 : Int) - q.1).natAbs ≤ 1 ∧ ((p.2 : Int) - q.2).natAbs ≤ 1

/-- A path with one pixel for each column, from end to end, and each within half a pixel of the line. -/
structure FollowsLine (start stop : Nat × Nat) (f : Nat → Nat × Nat) : Prop where
  first : f 0 = start
  last : f (span start.1 stop.1) = stop
  column : ∀ k ≤ span start.1 stop.1, (f k).1 = toward start.1 stop.1 k
  touches : ∀ k < span start.1 stop.1, Touches (f k) (f (k + 1))
  near : ∀ k ≤ span start.1 stop.1,
    2 * ((((f k).2 : Int) - start.2) * (stop.1 - start.1) - ((f k).1 - start.1) * (stop.2 - start.2)).natAbs ≤
      span start.1 stop.1

/-- The pixels are those of such a path along the longer axis, each of them once. -/
def IsLine (start stop : Nat × Nat) (pixels : List (Nat × Nat)) : Prop :=
  if span start.2 stop.2 ≤ span start.1 stop.1 then
    ∃ f, FollowsLine start stop f ∧ pixels.Perm ((List.range (span start.1 stop.1 + 1)).map f)
  else
    ∃ f, FollowsLine start.swap stop.swap f ∧
      (pixels.map Prod.swap).Perm ((List.range (span start.2 stop.2 + 1)).map f)

theorem toward_zero (a b : Nat) : toward a b 0 = a := by
  rw [toward]
  split <;> omega

theorem toward_span (a b : Nat) : toward a b (span a b) = b := by
  rw [toward, span]
  split <;> omega

theorem toward_inj {a b k k' : Nat} (hk : k ≤ span a b) (hk' : k' ≤ span a b) (h : toward a b k = toward a b k') :
    k = k' := by
  rw [toward, toward] at h
  rw [span] at hk hk'
  split at h <;> omega

/-- The columns of a line one after another, each with the nearest row. -/
def ideal (start stop : Nat × Nat) (k : Nat) : Nat × Nat :=
  (toward start.1 stop.1 k,
    toward start.2 stop.2 (rounded (span start.1 stop.1) (span start.2 stop.2) k))

theorem toward_sub (a b k : Nat) (hk : k ≤ span a b) :
    ∃ sign : Int, sign.natAbs = 1 ∧ (toward a b k : Int) - a = sign * k ∧ (b : Int) - a = sign * span a b := by
  rcases Nat.lt_or_ge a b with h | h
  · refine ⟨1, rfl, ?_, ?_⟩
    · rw [toward, if_pos h]
      omega
    · rw [span]
      omega
  · refine ⟨-1, rfl, ?_, ?_⟩
    · rw [toward, if_neg (Nat.not_lt.mpr h)]
      rw [span] at hk
      omega
    · rw [span]
      omega

theorem ideal_near {start stop : Nat × Nat} {k : Nat} (hk : k ≤ span start.1 stop.1) :
    2 * ((((ideal start stop k).2 : Int) - start.2) * (stop.1 - start.1) -
      ((ideal start stop k).1 - start.1) * (stop.2 - start.2)).natAbs ≤ span start.1 stop.1 := by
  obtain ⟨sx, hsx, hx, hdx⟩ := toward_sub start.1 stop.1 k hk
  obtain ⟨sy, hsy, hy, hdy⟩ := toward_sub start.2 stop.2
    (rounded (span start.1 stop.1) (span start.2 stop.2) k) (rounded_le_minor _ hk)
  have hfactor : (((ideal start stop k).2 : Int) - start.2) * (stop.1 - start.1) -
      ((ideal start stop k).1 - start.1) * (stop.2 - start.2) =
      (sx * sy) * (((span start.1 stop.1 * rounded (span start.1 stop.1) (span start.2 stop.2) k : Nat) : Int) -
        (k * span start.2 stop.2 : Nat)) := by
    rw [ideal]
    simp only
    rw [hx, hdx, hy, hdy]
    push_cast
    ring
  rw [hfactor, Int.natAbs_mul, Int.natAbs_mul, hsx, hsy, Nat.mul_one, Nat.one_mul]
  rcases Nat.eq_zero_or_pos (span start.1 stop.1) with h | h
  · have hkz : k = 0 := Nat.le_zero.mp (h ▸ hk)
    rw [h, hkz]
    simp
  · have hle := rounded_le (span start.1 stop.1) (span start.2 stop.2) k
    have hlt := lt_rounded h (span start.2 stop.2) k
    omega

theorem ideal_follows (start stop : Nat × Nat) (h : span start.2 stop.2 ≤ span start.1 stop.1) :
    FollowsLine start stop (ideal start stop) where
  first := by
    rw [ideal, rounded_zero, toward_zero, toward_zero]
  last := by
    have hrow : rounded (span start.1 stop.1) (span start.2 stop.2) (span start.1 stop.1) = span start.2 stop.2 := by
      rcases Nat.eq_zero_or_pos (span start.1 stop.1) with hz | hpos
      · rw [hz] at h ⊢
        rw [Nat.le_zero.mp h, rounded_zero]
      · exact rounded_major hpos _
    rw [ideal, hrow, toward_span, toward_span]
  column := fun k _ => rfl
  touches := by
    intro k hk
    have hstep := rounded_succ (Nat.lt_of_le_of_lt (Nat.zero_le k) hk) h k
    rw [Touches, ideal, ideal]
    simp only [toward]
    constructor
    · split <;> omega
    · rw [hstep]
      split <;> split <;> omega
  near := fun k hk => ideal_near hk

/-! ## The states of the loop -/

def slope (a b : Nat) : Int := if a < b then 1 else -1

theorem toward_succ {a b k : Nat} (hk : k < span a b) : (toward a b (k + 1) : Int) = toward a b k + slope a b := by
  rw [span] at hk
  rw [toward, toward, slope]
  split <;> omega

theorem toward_le {a b k n : Nat} (ha : a ≤ n) (hb : b ≤ n) (hk : k ≤ span a b) : toward a b k ≤ n := by
  rw [span] at hk
  rw [toward]
  split <;> omega

def InRange (p : Nat × Nat) : Prop := p.1 ≤ 16383 ∧ p.2 ≤ 16383
deriving Decidable

section Run

variable {start stop : Nat × Nat} {k : Nat} {s : LineState}

theorem lineParams_eq (hstart : InRange start) (hstop : InRange stop) :
    lineParams start.1 start.2 stop.1 stop.2 =
      ⟨stop.1, stop.2, slope start.1 stop.1, slope start.2 stop.2, span start.1 stop.1, -span start.2 stop.2⟩ := by
  obtain ⟨hx0, hy0⟩ := hstart
  obtain ⟨hx1, hy1⟩ := hstop
  have heq : ∀ n : Nat, n ≤ 16383 → toInt16 n = n := fun n hn => toInt16_eq (by omega) (by omega)
  have hspan : ∀ a b : Nat, ((b : Int) - a).natAbs = span a b := fun a b => by rw [span]; omega
  have hspanx : span start.1 stop.1 ≤ 16383 := by rw [span]; omega
  have hspany : span start.2 stop.2 ≤ 16383 := by rw [span]; omega
  simp only [lineParams, heq _ hx0, heq _ hy0, heq _ hx1, heq _ hy1, hspan, heq _ hspanx, Int.ofNat_lt]
  rw [toInt16_eq (v := -(span start.2 stop.2 : Int)) (by omega) (by omega)]
  rfl

/-- How far the error is from where it begins to be cut, for a line of these lengths in this column. -/
def lead (major minor k : Nat) : Int :=
  (major * rounded major minor k : Nat) + major - (k * minor : Nat) - minor

structure FlatState (start stop : Nat × Nat) (k : Nat) (s : LineState) : Prop where
  x : s.x = toward start.1 stop.1 k
  y : s.y = toward start.2 stop.2 (rounded (span start.1 stop.1) (span start.2 stop.2) k)
  e : s.e = lead (span start.1 stop.1) (span start.2 stop.2) k

structure SteepState (start stop : Nat × Nat) (k : Nat) (s : LineState) : Prop where
  x : s.x = toward start.1 stop.1 (rounded (span start.2 stop.2) (span start.1 stop.1) k)
  y : s.y = toward start.2 stop.2 k
  e : s.e = -lead (span start.2 stop.2) (span start.1 stop.1) k

/-- The error moves within these bounds, and says when the row changes. -/
structure LeadFacts (major minor k : Nat) : Prop where
  lower : -minor < 2 * lead major minor k
  upper : 2 * lead major minor k ≤ 3 * major - 2 * minor
  next : lead major minor (k + 1) = lead major minor k - minor +
    if 2 * lead major minor k ≤ major then (major : Int) else 0
  row : rounded major minor (k + 1) = rounded major minor k + if 2 * lead major minor k ≤ major then 1 else 0

theorem leadFacts {major minor : Nat} (hle : minor ≤ major) (hpos : 0 < major) (k : Nat) :
    LeadFacts major minor k := by
  have hlow := rounded_le major minor k
  have hup := lt_rounded hpos minor k
  have hk : (k + 1) * minor = k * minor + minor := Nat.succ_mul k minor
  have hstep := rounded_succ hpos hle k
  have hcond : 2 * lead major minor k ≤ major ↔
      2 * (major * rounded major minor k) + major ≤ 2 * ((k + 1) * minor) := by
    rw [lead]
    omega
  have hrow : rounded major minor (k + 1) =
      rounded major minor k + if 2 * lead major minor k ≤ major then 1 else 0 := by
    rw [hstep]
    split
    · rename_i h
      rw [if_pos (hcond.mpr h)]
    · rename_i h
      rw [if_neg (fun hc => h (hcond.mp hc)), Nat.add_zero]
  refine ⟨?_, ?_, ?_, hrow⟩
  · rw [lead]
    omega
  · rw [lead]
    omega
  · by_cases h : 2 * lead major minor k ≤ major
    · rw [if_pos h] at hrow ⊢
      rw [lead, lead, hrow, Nat.mul_succ, hk]
      omega
    · rw [if_neg h] at hrow ⊢
      rw [lead, lead, hrow, Nat.add_zero, hk]
      omega

theorem toInt16_toward {a b n : Nat} (ha : a ≤ 16383) (hb : b ≤ 16383) (hn : n < span a b) :
    toInt16 (toward a b n + slope a b) = toward a b (n + 1) := by
  have hle : toward a b (n + 1) ≤ 16383 := toward_le ha hb hn
  rw [← toward_succ hn, toInt16_eq (by omega) (by omega)]

theorem span_le {a b n : Nat} (ha : a ≤ n) (hb : b ≤ n) : span a b ≤ n := by
  rw [span]
  omega

theorem lineStep_both {p : LineParams} (hx : toInt16 (2 * s.e) ≥ p.dy) (hy : toInt16 (2 * s.e) ≤ p.dx) :
    lineStep p s =
      ⟨toInt16 (s.x + p.slopex), toInt16 (s.y + p.slopey), toInt16 (toInt16 (s.e + p.dy) + p.dx)⟩ := by
  simp only [lineStep, if_pos hx, if_pos hy]

theorem lineStep_x {p : LineParams} (hx : toInt16 (2 * s.e) ≥ p.dy) (hy : ¬toInt16 (2 * s.e) ≤ p.dx) :
    lineStep p s = ⟨toInt16 (s.x + p.slopex), s.y, toInt16 (s.e + p.dy)⟩ := by
  simp only [lineStep, if_pos hx, if_neg hy]

theorem lineStep_y {p : LineParams} (hx : ¬toInt16 (2 * s.e) ≥ p.dy) (hy : toInt16 (2 * s.e) ≤ p.dx) :
    lineStep p s = ⟨s.x, toInt16 (s.y + p.slopey), toInt16 (s.e + p.dx)⟩ := by
  simp only [lineStep, if_neg hx, if_pos hy]

theorem flat_step (hstart : InRange start) (hstop : InRange stop) (hle : span start.2 stop.2 ≤ span start.1 stop.1)
    (hk : k < span start.1 stop.1) (hs : FlatState start stop k s)
    (hfit : lead (span start.1 stop.1) (span start.2 stop.2) k ≤ 16383) :
    FlatState start stop (k + 1) (lineStep (lineParams start.1 start.2 stop.1 stop.2) s) := by
  obtain ⟨hlower, -, hnext, hrow⟩ := leadFacts hle (Nat.lt_of_le_of_lt (Nat.zero_le k) hk) k
  have hD := span_le hstart.1 hstop.1
  have hH := span_le hstart.2 hstop.2
  have hminor : rounded (span start.1 stop.1) (span start.2 stop.2) (k + 1) ≤ span start.2 stop.2 :=
    rounded_le_minor _ hk
  have he2 : toInt16 (2 * s.e) = 2 * lead (span start.1 stop.1) (span start.2 stop.2) k := by
    rw [hs.e]
    exact toInt16_eq (by omega) (by omega)
  have hx := toInt16_toward hstart.1 hstop.1 hk
  have he : toInt16 (s.e + -(span start.2 stop.2 : Int)) =
      lead (span start.1 stop.1) (span start.2 stop.2) k - span start.2 stop.2 := by
    rw [hs.e]
    exact toInt16_eq (by omega) (by omega)
  rw [lineParams_eq hstart hstop]
  by_cases hup : 2 * lead (span start.1 stop.1) (span start.2 stop.2) k ≤ span start.1 stop.1
  · rw [if_pos hup] at hnext hrow
    rw [lineStep_both (by rw [he2]; simp only; omega) (by rw [he2]; exact hup)]
    refine ⟨?_, ?_, ?_⟩
    · show toInt16 (s.x + _) = _
      rw [hs.x, hx]
    · show toInt16 (s.y + _) = _
      rw [hs.y, hrow, toInt16_toward hstart.2 hstop.2 (by omega)]
    · show toInt16 (toInt16 (s.e + -(span start.2 stop.2 : Int)) + (span start.1 stop.1 : Int)) = _
      rw [he, hnext]
      exact toInt16_eq (by omega) (by omega)
  · rw [if_neg hup] at hnext hrow
    rw [lineStep_x (by rw [he2]; simp only; omega) (by rw [he2]; exact hup)]
    refine ⟨?_, ?_, ?_⟩
    · show toInt16 (s.x + _) = _
      rw [hs.x, hx]
    · show s.y = _
      rw [hs.y, hrow, Nat.add_zero]
    · show toInt16 (s.e + _) = _
      rw [he, hnext, Int.add_zero]

theorem steep_step (hstart : InRange start) (hstop : InRange stop) (hle : span start.1 stop.1 ≤ span start.2 stop.2)
    (hk : k < span start.2 stop.2) (hs : SteepState start stop k s)
    (hfit : lead (span start.2 stop.2) (span start.1 stop.1) k ≤ 16384) :
    SteepState start stop (k + 1) (lineStep (lineParams start.1 start.2 stop.1 stop.2) s) := by
  obtain ⟨hlower, -, hnext, hrow⟩ := leadFacts hle (Nat.lt_of_le_of_lt (Nat.zero_le k) hk) k
  have hD := span_le hstart.1 hstop.1
  have hH := span_le hstart.2 hstop.2
  have hminor : rounded (span start.2 stop.2) (span start.1 stop.1) (k + 1) ≤ span start.1 stop.1 :=
    rounded_le_minor _ hk
  have he2 : toInt16 (2 * s.e) = -(2 * lead (span start.2 stop.2) (span start.1 stop.1) k) := by
    rw [hs.e, toInt16_eq (by omega) (by omega), Int.mul_neg]
  have hy := toInt16_toward hstart.2 hstop.2 hk
  rw [lineParams_eq hstart hstop]
  by_cases hup : 2 * lead (span start.2 stop.2) (span start.1 stop.1) k ≤ span start.2 stop.2
  · rw [if_pos hup] at hnext hrow
    rw [lineStep_both (by rw [he2]; simp only; omega) (by rw [he2]; simp only; omega)]
    have he : toInt16 (s.e + -(span start.2 stop.2 : Int)) =
        -lead (span start.2 stop.2) (span start.1 stop.1) k - span start.2 stop.2 := by
      rw [hs.e]
      exact toInt16_eq (by omega) (by omega)
    refine ⟨?_, ?_, ?_⟩
    · show toInt16 (s.x + _) = _
      rw [hs.x, hrow, toInt16_toward hstart.1 hstop.1 (by omega)]
    · show toInt16 (s.y + _) = _
      rw [hs.y, hy]
    · show toInt16 (toInt16 (s.e + -(span start.2 stop.2 : Int)) + (span start.1 stop.1 : Int)) = _
      rw [he, hnext, toInt16_eq (by omega) (by omega)]
      omega
  · rw [if_neg hup] at hnext hrow
    rw [lineStep_y (by rw [he2]; simp only; omega) (by rw [he2]; simp only; omega)]
    refine ⟨?_, ?_, ?_⟩
    · show s.x = _
      rw [hs.x, hrow, Nat.add_zero]
    · show toInt16 (s.y + _) = _
      rw [hs.y, hy]
    · show toInt16 (s.e + (span start.1 stop.1 : Int)) = _
      rw [hs.e, hnext, toInt16_eq (by omega) (by omega)]
      omega

theorem flat_over (hstart : InRange start) (hstop : InRange stop) (hle : span start.2 stop.2 ≤ span start.1 stop.1)
    (hk : k < span start.1 stop.1) (hs : FlatState start stop k s)
    (hover : 16383 < lead (span start.1 stop.1) (span start.2 stop.2) k) :
    (lineStep (lineParams start.1 start.2 stop.1 stop.2) s).x = s.x ∧
      (lineStep (lineParams start.1 start.2 stop.1 stop.2) s).y = s.y + slope start.2 stop.2 := by
  obtain ⟨-, hupper, -, -⟩ := leadFacts hle (Nat.lt_of_le_of_lt (Nat.zero_le k) hk) k
  have hD := span_le hstart.1 hstop.1
  have hH := span_le hstart.2 hstop.2
  have hrow := toward_le hstart.2 hstop.2 (rounded_le_minor (span start.2 stop.2) (Nat.le_of_lt hk))
  have he2 : toInt16 (2 * s.e) = 2 * lead (span start.1 stop.1) (span start.2 stop.2) k - 65536 := by
    rw [hs.e, toInt16]
    omega
  rw [lineParams_eq hstart hstop, lineStep_y (by rw [he2]; simp only; omega) (by rw [he2]; simp only; omega)]
  refine ⟨rfl, ?_⟩
  show toInt16 (s.y + slope start.2 stop.2) = _
  rw [hs.y, slope]
  split
  · exact toInt16_eq (by omega) (by omega)
  · exact toInt16_eq (by omega) (by omega)

theorem steep_over (hstart : InRange start) (hstop : InRange stop) (hle : span start.1 stop.1 ≤ span start.2 stop.2)
    (hk : k < span start.2 stop.2) (hs : SteepState start stop k s)
    (hover : 16384 < lead (span start.2 stop.2) (span start.1 stop.1) k) :
    (lineStep (lineParams start.1 start.2 stop.1 stop.2) s).x = s.x + slope start.1 stop.1 ∧
      (lineStep (lineParams start.1 start.2 stop.1 stop.2) s).y = s.y := by
  obtain ⟨-, hupper, -, -⟩ := leadFacts hle (Nat.lt_of_le_of_lt (Nat.zero_le k) hk) k
  have hD := span_le hstart.1 hstop.1
  have hH := span_le hstart.2 hstop.2
  have hrow := toward_le hstart.1 hstop.1 (rounded_le_minor (span start.1 stop.1) (Nat.le_of_lt hk))
  have he2 : toInt16 (2 * s.e) = 65536 - 2 * lead (span start.2 stop.2) (span start.1 stop.1) k := by
    rw [hs.e, toInt16]
    omega
  rw [lineParams_eq hstart hstop, lineStep_x (by rw [he2]; simp only; omega) (by rw [he2]; simp only; omega)]
  refine ⟨?_, rfl⟩
  show toInt16 (s.x + slope start.1 stop.1) = _
  rw [hs.x, slope]
  split
  · exact toInt16_eq (by omega) (by omega)
  · exact toInt16_eq (by omega) (by omega)

/-! ## Runs of the loop -/

theorem lineStart_eq (hstart : InRange start) (hstop : InRange stop) :
    lineStart start.1 start.2 stop.1 stop.2 =
      ⟨start.1, start.2, (span start.1 stop.1 : Int) - span start.2 stop.2⟩ := by
  have hD := span_le hstart.1 hstop.1
  have hH := span_le hstart.2 hstop.2
  obtain ⟨hx0, hy0⟩ := hstart
  rw [lineStart, lineParams_eq ⟨hx0, hy0⟩ hstop, toInt16_eq (v := start.1) (by omega) (by omega),
    toInt16_eq (v := start.2) (by omega) (by omega)]
  simp only
  rw [toInt16_eq (by omega) (by omega)]
  rfl

def lineState (start stop : Nat × Nat) (k : Nat) : LineState :=
  (lineStep (lineParams start.1 start.2 stop.1 stop.2))^[k] (lineStart start.1 start.2 stop.1 stop.2)

theorem lineState_succ (start stop : Nat × Nat) (k : Nat) :
    lineState start stop (k + 1) =
      lineStep (lineParams start.1 start.2 stop.1 stop.2) (lineState start stop k) :=
  Function.iterate_succ_apply' _ _ _

theorem lead_zero (major minor : Nat) : lead major minor 0 = (major : Int) - minor := by
  rw [lead, rounded_zero]
  omega

theorem flat_run (hstart : InRange start) (hstop : InRange stop) (hle : span start.2 stop.2 ≤ span start.1 stop.1)
    (hk : k ≤ span start.1 stop.1) (hfit : ∀ j < k, lead (span start.1 stop.1) (span start.2 stop.2) j ≤ 16383) :
    FlatState start stop k (lineState start stop k) := by
  induction k with
  | zero =>
    rw [lineState, Function.iterate_zero_apply, lineStart_eq hstart hstop]
    exact ⟨by rw [toward_zero], by rw [rounded_zero, toward_zero], (lead_zero _ _).symm⟩
  | succ k ih =>
    rw [lineState_succ]
    exact flat_step hstart hstop hle hk (ih (Nat.le_of_succ_le hk) fun j hj => hfit j (Nat.lt_succ_of_lt hj))
      (hfit k (Nat.lt_succ_self k))

theorem steep_run (hstart : InRange start) (hstop : InRange stop) (hle : span start.1 stop.1 ≤ span start.2 stop.2)
    (hk : k ≤ span start.2 stop.2) (hfit : ∀ j < k, lead (span start.2 stop.2) (span start.1 stop.1) j ≤ 16384) :
    SteepState start stop k (lineState start stop k) := by
  induction k with
  | zero =>
    rw [lineState, Function.iterate_zero_apply, lineStart_eq hstart hstop]
    refine ⟨by rw [rounded_zero, toward_zero], by rw [toward_zero], ?_⟩
    rw [lead_zero]
    simp only
    omega
  | succ k ih =>
    rw [lineState_succ]
    exact steep_step hstart hstop hle hk (ih (Nat.le_of_succ_le hk) fun j hj => hfit j (Nat.lt_succ_of_lt hj))
      (hfit k (Nat.lt_succ_self k))

theorem FlatState.point (hstart : InRange start) (hstop : InRange stop) (hk : k ≤ span start.1 stop.1)
    (h : FlatState start stop k s) : s.point = ideal start stop k := by
  have hx := toward_le hstart.1 hstop.1 hk
  have hy := toward_le hstart.2 hstop.2 (rounded_le_minor (span start.2 stop.2) hk)
  rw [LineState.point, h.x, h.y, toUInt16_natCast (by omega), toUInt16_natCast (by omega)]
  rfl

theorem SteepState.point (hstart : InRange start) (hstop : InRange stop) (hk : k ≤ span start.2 stop.2)
    (h : SteepState start stop k s) : s.point = (ideal start.swap stop.swap k).swap := by
  have hx := toward_le hstart.1 hstop.1 (rounded_le_minor (span start.1 stop.1) hk)
  have hy := toward_le hstart.2 hstop.2 hk
  rw [LineState.point, h.x, h.y, toUInt16_natCast (by omega), toUInt16_natCast (by omega)]
  rfl

theorem FlatState.atEnd_iff (hle : span start.2 stop.2 ≤ span start.1 stop.1) (hk : k ≤ span start.1 stop.1)
    (h : FlatState start stop k s) :
    (lineParams start.1 start.2 stop.1 stop.2).AtEnd s ↔ k = span start.1 stop.1 := by
  constructor
  · rintro ⟨hx, -⟩
    have hx' : (toward start.1 stop.1 k : Int) = stop.1 := h.x.symm.trans hx
    exact toward_inj hk (Nat.le_refl _) ((Int.ofNat_inj.mp hx').trans (toward_span _ _).symm)
  · rintro rfl
    have hlast := (ideal_follows _ _ hle).last
    exact ⟨h.x.trans (congrArg (fun p : Nat × Nat => (p.1 : Int)) hlast),
      h.y.trans (congrArg (fun p : Nat × Nat => (p.2 : Int)) hlast)⟩

theorem SteepState.atEnd_iff (hle : span start.1 stop.1 ≤ span start.2 stop.2) (hk : k ≤ span start.2 stop.2)
    (h : SteepState start stop k s) :
    (lineParams start.1 start.2 stop.1 stop.2).AtEnd s ↔ k = span start.2 stop.2 := by
  constructor
  · rintro ⟨-, hy⟩
    have hy' : (toward start.2 stop.2 k : Int) = stop.2 := h.y.symm.trans hy
    exact toward_inj hk (Nat.le_refl _) ((Int.ofNat_inj.mp hy').trans (toward_span _ _).symm)
  · rintro rfl
    have hlast := (ideal_follows start.swap stop.swap hle).last
    exact ⟨h.x.trans (congrArg (fun p : Nat × Nat => (p.2 : Int)) hlast),
      h.y.trans (congrArg (fun p : Nat × Nat => (p.1 : Int)) hlast)⟩

end Run

/-! ## Lines that are drawn -/

def LineFits (start stop : Nat × Nat) : Prop :=
  if span start.2 stop.2 ≤ span start.1 stop.1 then
    span start.1 stop.1 - span start.2 stop.2 + peak (span start.1 stop.1) (span start.2 stop.2) ≤ 16383
  else span start.2 stop.2 - span start.1 stop.1 + peak (span start.2 stop.2) (span start.1 stop.1) ≤ 16384

theorem lead_le_iff {major minor : Nat} (hle : minor ≤ major) (hpos : 0 < major) (bound : Nat) :
    (∀ k < major, lead major minor k ≤ bound) ↔ major - minor + peak major minor ≤ bound := by
  constructor
  · intro h
    obtain ⟨k, hk, heq⟩ := exists_excess_eq_peak hpos minor
    have hlead := h k hk
    rw [lead, heq] at hlead
    omega
  · intro h k _
    have hexcess := excess_le_peak major minor k
    rw [lead]
    omega

theorem FollowsLine.same_column {start stop : Nat × Nat} {f : Nat → Nat × Nat} {pixels : List (Nat × Nat)}
    (h : FollowsLine start stop f) (hperm : pixels.Perm ((List.range (span start.1 stop.1 + 1)).map f))
    {p q : Nat × Nat} (hp : p ∈ pixels) (hq : q ∈ pixels) (heq : p.1 = q.1) : p = q := by
  obtain ⟨a, ha, rfl⟩ := List.mem_map.mp (hperm.mem_iff.mp hp)
  obtain ⟨b, hb, rfl⟩ := List.mem_map.mp (hperm.mem_iff.mp hq)
  have ha' := Nat.le_of_lt_succ (List.mem_range.mp ha)
  have hb' := Nat.le_of_lt_succ (List.mem_range.mp hb)
  rw [h.column a ha', h.column b hb'] at heq
  rw [toward_inj ha' hb' heq]

theorem toUInt16_slope (n a b : Nat) : toUInt16 (n + slope a b) ≠ n := by
  rw [toUInt16, slope]
  split <;> omega

def linePixels (start stop : Nat × Nat) (n : Nat) : List (Nat × Nat) :=
  (List.range (n + 1)).map fun j => (lineState start stop j).point

theorem mem_linePixels {start stop : Nat × Nat} {n j : Nat} (h : j ≤ n) :
    (lineState start stop j).point ∈ linePixels start stop n :=
  List.mem_map.mpr ⟨j, List.mem_range.mpr (Nat.lt_succ_of_le h), rfl⟩

structure EndsAfter (start stop : Nat × Nat) (n : Nat) : Prop where
  atEnd : (lineParams start.1 start.2 stop.1 stop.2).AtEnd (lineState start stop n)
  before : ∀ j < n, ¬(lineParams start.1 start.2 stop.1 stop.2).AtEnd (lineState start stop j)

section Drawn

variable {start stop : Nat × Nat}

theorem flat_fits (hstart : InRange start) (hstop : InRange stop) (hle : span start.2 stop.2 ≤ span start.1 stop.1)
    (hfit : ∀ k < span start.1 stop.1, lead (span start.1 stop.1) (span start.2 stop.2) k ≤ 16383) :
    EndsAfter start stop (span start.1 stop.1) ∧
      linePixels start stop (span start.1 stop.1) =
        (List.range (span start.1 stop.1 + 1)).map (ideal start stop) := by
  have hrun : ∀ k ≤ span start.1 stop.1, FlatState start stop k (lineState start stop k) := fun k hk =>
    flat_run hstart hstop hle hk fun j hj => hfit j (Nat.lt_of_lt_of_le hj hk)
  refine ⟨⟨?_, fun j hj => ?_⟩, ?_⟩
  · exact ((hrun _ (Nat.le_refl _)).atEnd_iff hle (Nat.le_refl _)).mpr rfl
  · rw [(hrun j (Nat.le_of_lt hj)).atEnd_iff hle (Nat.le_of_lt hj)]
    exact Nat.ne_of_lt hj
  · apply List.map_congr_left
    intro k hk
    have hk' := Nat.le_of_lt_succ (List.mem_range.mp hk)
    exact (hrun k hk').point hstart hstop hk'

theorem steep_fits (hstart : InRange start) (hstop : InRange stop) (hle : span start.1 stop.1 ≤ span start.2 stop.2)
    (hfit : ∀ k < span start.2 stop.2, lead (span start.2 stop.2) (span start.1 stop.1) k ≤ 16384) :
    EndsAfter start stop (span start.2 stop.2) ∧
      (linePixels start stop (span start.2 stop.2)).map Prod.swap =
        (List.range (span start.2 stop.2 + 1)).map (ideal start.swap stop.swap) := by
  have hrun : ∀ k ≤ span start.2 stop.2, SteepState start stop k (lineState start stop k) := fun k hk =>
    steep_run hstart hstop hle hk fun j hj => hfit j (Nat.lt_of_lt_of_le hj hk)
  refine ⟨⟨?_, fun j hj => ?_⟩, ?_⟩
  · exact ((hrun _ (Nat.le_refl _)).atEnd_iff hle (Nat.le_refl _)).mpr rfl
  · rw [(hrun j (Nat.le_of_lt hj)).atEnd_iff hle (Nat.le_of_lt hj)]
    exact Nat.ne_of_lt hj
  · rw [linePixels, List.map_map]
    apply List.map_congr_left
    intro k hk
    have hk' := Nat.le_of_lt_succ (List.mem_range.mp hk)
    rw [Function.comp_apply, (hrun k hk').point hstart hstop hk', Prod.swap_swap]

theorem flat_not_line (start stop : Nat × Nat) (hstart : InRange start) (hstop : InRange stop)
    (hle : span start.2 stop.2 ≤ span start.1 stop.1)
    (hover : ∃ k, k < span start.1 stop.1 ∧ 16383 < lead (span start.1 stop.1) (span start.2 stop.2) k) {n : Nat}
    (hends : EndsAfter start stop n) : ¬IsLine start stop (linePixels start stop n) := by
  obtain ⟨hk, hlead⟩ := Nat.find_spec hover
  have hrun : ∀ j ≤ Nat.find hover, FlatState start stop j (lineState start stop j) := fun j hj =>
    flat_run hstart hstop hle (by omega) fun i hi => by
      have := Nat.find_min hover (Nat.lt_of_lt_of_le hi hj)
      omega
  have hn : Nat.find hover < n := by
    by_contra hc
    have := ((hrun n (by omega)).atEnd_iff hle (by omega)).mp hends.atEnd
    omega
  have hnow := hrun _ (Nat.le_refl _)
  obtain ⟨hx, hy⟩ := flat_over hstart hstop hle hk hnow hlead
  rw [← lineState_succ] at hx hy
  rw [IsLine, if_pos hle]
  rintro ⟨f, hf, hperm⟩
  have hsame := hf.same_column hperm (mem_linePixels (Nat.le_of_lt hn)) (mem_linePixels hn)
    (congrArg toUInt16 hx).symm
  have hrow : toUInt16 (lineState start stop (Nat.find hover)).y =
      toUInt16 (lineState start stop (Nat.find hover + 1)).y := congrArg Prod.snd hsame
  have hle' := toward_le hstart.2 hstop.2 (rounded_le_minor (span start.2 stop.2) (Nat.le_of_lt hk))
  rw [hy, hnow.y, toUInt16_natCast (by omega)] at hrow
  exact toUInt16_slope _ _ _ hrow.symm

theorem steep_not_line (hstart : InRange start) (hstop : InRange stop)
    (hlt : span start.1 stop.1 < span start.2 stop.2)
    (hover : ∃ k, k < span start.2 stop.2 ∧ 16384 < lead (span start.2 stop.2) (span start.1 stop.1) k) {n : Nat}
    (hends : EndsAfter start stop n) : ¬IsLine start stop (linePixels start stop n) := by
  have hle := Nat.le_of_lt hlt
  obtain ⟨hk, hlead⟩ := Nat.find_spec hover
  have hrun : ∀ j ≤ Nat.find hover, SteepState start stop j (lineState start stop j) := fun j hj =>
    steep_run hstart hstop hle (by omega) fun i hi => by
      have := Nat.find_min hover (Nat.lt_of_lt_of_le hi hj)
      omega
  have hn : Nat.find hover < n := by
    by_contra hc
    have := ((hrun n (by omega)).atEnd_iff hle (by omega)).mp hends.atEnd
    omega
  have hnow := hrun _ (Nat.le_refl _)
  obtain ⟨hx, hy⟩ := steep_over hstart hstop hle hk hnow hlead
  rw [← lineState_succ] at hx hy
  rw [IsLine, if_neg (Nat.not_le.mpr hlt)]
  rintro ⟨f, hf, hperm⟩
  have hsame := hf.same_column hperm (List.mem_map_of_mem (mem_linePixels (Nat.le_of_lt hn)))
    (List.mem_map_of_mem (mem_linePixels hn)) (congrArg toUInt16 hy).symm
  have hcolumn : toUInt16 (lineState start stop (Nat.find hover)).x =
      toUInt16 (lineState start stop (Nat.find hover + 1)).x := congrArg Prod.snd hsame
  have hle' := toward_le hstart.1 hstop.1 (rounded_le_minor (span start.1 stop.1) (Nat.le_of_lt hk))
  rw [hx, hnow.x, toUInt16_natCast (by omega)] at hcolumn
  exact toUInt16_slope _ _ _ hcolumn.symm

/-! ## Lines inside of one row or column -/

theorem mem_toward {a b n : Nat} : (∃ k ≤ span a b, toward a b k = n) ↔ min a b ≤ n ∧ n ≤ max a b := by
  constructor
  · rintro ⟨k, hk, rfl⟩
    rw [span] at hk
    rw [toward]
    split <;> omega
  · intro h
    refine ⟨span a n, ?_, ?_⟩
    · rw [span, span]
      omega
    · rw [toward, span]
      split <;> omega

theorem row_ideal (start stop : Nat × Nat) (hrow : start.2 = stop.2) :
    ((List.range (span start.1 stop.1 + 1)).map (ideal start stop)).Nodup ∧
      ∀ p, p ∈ (List.range (span start.1 stop.1 + 1)).map (ideal start stop) ↔
        (min start.1 stop.1 ≤ p.1 ∧ p.1 ≤ max start.1 stop.1) ∧ p.2 = start.2 := by
  have hideal : ∀ k ≤ span start.1 stop.1, ideal start stop k = (toward start.1 stop.1 k, start.2) := by
    intro k hk
    have hzero : span start.2 stop.2 = 0 := by
      rw [span]
      omega
    have hle := rounded_le_minor 0 hk
    rw [ideal, hzero, Nat.le_zero.mp hle, toward_zero]
  constructor
  · refine List.Nodup.map_on (fun i hi j hj heq => ?_) List.nodup_range
    exact toward_inj (Nat.le_of_lt_succ (List.mem_range.mp hi)) (Nat.le_of_lt_succ (List.mem_range.mp hj))
      (congrArg Prod.fst heq)
  · intro p
    rw [← mem_toward, List.mem_map]
    constructor
    · rintro ⟨k, hk, rfl⟩
      have hk' := Nat.le_of_lt_succ (List.mem_range.mp hk)
      rw [hideal k hk']
      exact ⟨⟨k, hk', rfl⟩, rfl⟩
    · rintro ⟨⟨k, hk, heq⟩, hsnd⟩
      exact ⟨k, List.mem_range.mpr (Nat.lt_succ_of_le hk), (hideal k hk).trans (Prod.ext heq hsnd.symm)⟩

theorem span_eq_zero {a b : Nat} : span a b = 0 ↔ a = b := by
  rw [span]
  omega

theorem fits_of_row {major : Nat} : major - 0 + peak major 0 = major := by
  have htwo := two_mul_peak major 0
  rw [Nat.gcd_zero_right] at htwo
  rcases Nat.eq_zero_or_pos major with rfl | h
  · omega
  · rw [Nat.mod_eq_of_lt (by omega)] at htwo
    omega

theorem rect_isLine (hflat : start.1 = stop.1 ∨ start.2 = stop.2) {win : Window}
    (hwin : win = ⟨min start.1 stop.1, min start.2 stop.2, max start.1 stop.1, max start.2 stop.2⟩) :
    IsLine start stop ((List.range (win.width * win.height)).map win.pixel) := by
  have hx : win.left ≤ win.right := by
    rw [hwin]
    simp only
    omega
  have hy : win.top ≤ win.bottom := by
    rw [hwin]
    simp only
    omega
  rw [IsLine]
  split
  · rename_i hle
    have hrow : start.2 = stop.2 := by
      rcases hflat with h | h
      · rw [span_eq_zero.mpr h] at hle
        exact span_eq_zero.mp (Nat.le_zero.mp hle)
      · exact h
    obtain ⟨hnodup, hmem⟩ := row_ideal start stop hrow
    refine ⟨_, ideal_follows _ _ hle, Window.perm_pixels hx hy hnodup fun p => ?_⟩
    rw [hmem, Window.Has, hwin]
    simp only
    omega
  · rename_i hlt
    have hcolumn : start.1 = stop.1 := by
      rcases hflat with h | h
      · exact h
      · rw [span_eq_zero.mpr h] at hlt
        omega
    obtain ⟨hnodup, hmem⟩ := row_ideal start.swap stop.swap hcolumn
    refine ⟨_, ideal_follows start.swap stop.swap (Nat.le_of_not_le hlt), ?_⟩
    have hperm := Window.perm_pixels hx hy (hnodup.map Prod.swap_injective) fun p => by
      rw [List.mem_map]
      constructor
      · rintro ⟨q, hq, rfl⟩
        have hq' := (hmem q).mp hq
        rw [Window.Has, hwin]
        simp only [Prod.fst_swap, Prod.snd_swap] at hq' ⊢
        omega
      · intro hp
        refine ⟨p.swap, (hmem _).mpr ?_, p.swap_swap⟩
        rw [Window.Has, hwin] at hp
        simp only [Prod.fst_swap, Prod.snd_swap] at hp ⊢
        omega
    have hback := hperm.map Prod.swap
    rwa [List.map_map (f := Prod.swap) (g := Prod.swap), Prod.swap_swap_eq, List.map_id] at hback

end Drawn

namespace DrawDriver

variable {ν : Type} {d : DrawDriver ν} {x0 y0 x1 y1 : UInt16}

def place (x y : UInt16) : Nat × Nat := (x.toNat, y.toNat)

/-- `qp_line` comes to its end, with a line from point to point. -/
def DrawsLine (d : DrawDriver ν) (x0 y0 x1 y1 : UInt16) (hsv : Hsv888) (c : Canvas ν) : Prop :=
  ∃ fuel c', d.qpLine fuel x0 y0 x1 y1 hsv c.clean = some (true, c') ∧
    IsLine (place x0 y0) (place x1 y1) (c'.sent.map Prod.fst)

theorem qpLine_flat (h : Succeeds d) (hstart : InRange (place x0 y0)) (hstop : InRange (place x1 y1))
    (hflat : x0 = x1 ∨ y0 = y1) (hsv : Hsv888) (c : Canvas ν) : DrawsLine d x0 y0 x1 y1 hsv c := by
  obtain ⟨hx0, hy0⟩ := hstart
  obtain ⟨hx1, hy1⟩ := hstop
  simp only [place] at hx0 hy0 hx1 hy1
  have hw : (spanned x0 y0 x1 y1).width ≤ 32767 := by
    simp only [spanned, Window.width]
    omega
  have hh : (spanned x0 y0 x1 y1).height ≤ 32767 := by
    simp only [spanned, Window.height]
    omega
  obtain ⟨hx, hy⟩ := spanned_le x0 y0 x1 y1
  obtain ⟨hok, hsent⟩ := filled_sent h hx hy hw hh hsv c.clean
  have hrect := qpRect_eq h rfl hw hh hsv true c.clean
  rw [if_pos rfl] at hrect
  refine ⟨0, (d.qpRect x0 y0 x1 y1 hsv true c.clean).2, ?_, ?_⟩
  · rw [qpLine, if_pos hflat]
    rw [← hrect] at hok
    exact congrArg some (Prod.ext hok rfl)
  · have hpixels : (d.qpRect x0 y0 x1 y1 hsv true c.clean).2.sent.map Prod.fst =
        (List.range ((spanned x0 y0 x1 y1).width * (spanned x0 y0 x1 y1).height)).map (spanned x0 y0 x1 y1).pixel := by
      rw [hrect, hsent, List.map_append, List.map_map]
      rfl
    rw [hpixels]
    apply rect_isLine _ rfl
    exact hflat.imp (congrArg UInt16.toNat) (congrArg UInt16.toNat)

theorem lineFits_flat (hstart : InRange (place x0 y0)) (hstop : InRange (place x1 y1)) (hflat : x0 = x1 ∨ y0 = y1) :
    LineFits (place x0 y0) (place x1 y1) := by
  have hD := span_le hstart.1 hstop.1
  have hH := span_le hstart.2 hstop.2
  rw [LineFits]
  rcases hflat with rfl | rfl
  · have hzero : span (place x0 y0).1 (place x0 y1).1 = 0 := span_eq_zero.mpr rfl
    rw [hzero]
    split
    · rename_i hle
      rw [Nat.le_zero.mp hle, fits_of_row]
      exact Nat.zero_le _
    · rw [fits_of_row]
      omega
  · have hzero : span (place x0 y0).2 (place x1 y0).2 = 0 := span_eq_zero.mpr rfl
    rw [hzero, if_pos (Nat.zero_le _), fits_of_row]
    exact hD

section Slanted

variable (h : Succeeds d) (hne : ¬(x0 = x1 ∨ y0 = y1)) (hsv : Hsv888) (c : Canvas ν)

include h hne

theorem qpLine_sent {fuel : Nat} {ret : Bool} {c' : Canvas ν}
    (hrun : d.qpLine fuel x0 y0 x1 y1 hsv c.clean = some (ret, c')) :
    ∃ n, EndsAfter (place x0 y0) (place x1 y1) n ∧
      c'.sent.map Prod.fst = linePixels (place x0 y0) (place x1 y1) n := by
  rw [qpLine, if_neg hne, if_neg (by rw [h.validateOk]; decide), if_neg (by rw [h.commsStart]; decide)] at hrun
  obtain ⟨⟨ret', s', c1⟩, hloop, heq⟩ := Option.map_eq_some_iff.mp hrun
  obtain ⟨-, n, hs', hbefore, hend, hbuffer, hsent⟩ := lineLoop_sent h hloop
  obtain ⟨-, -, hlast⟩ := setpixelImpl_ok h s'.point.1 s'.point.2 c1
  have hc' : (d.setpixelImpl s'.point.1 s'.point.2 c1).2 = c' := congrArg Prod.snd heq
  have hstate : s' = lineState (place x0 y0) (place x1 y1) n := hs'
  refine ⟨n, ⟨hstate ▸ hend, hbefore⟩, ?_⟩
  rw [← hc', hlast, hsent, fillPixdata_eq, linePixels, List.range_succ, hstate]
  simp only [List.map_append, List.map_map, List.map_cons, List.map_nil]
  rfl

theorem qpLine_ends {n : Nat} (hend : EndsAfter (place x0 y0) (place x1 y1) n) :
    ∃ c', d.qpLine (n + 1) x0 y0 x1 y1 hsv c.clean = some (true, c') ∧
      c'.sent.map Prod.fst = linePixels (place x0 y0) (place x1 y1) n := by
  obtain ⟨⟨ret, s', c1⟩, hloop⟩ := lineLoop_ends h hend.atEnd (d.fillPixdata 1 hsv c.clean)
  obtain ⟨rfl, -⟩ := lineLoop_sent h hloop
  have hok := (setpixelImpl_ok h s'.point.1 s'.point.2 c1).1
  have hrun : d.qpLine (n + 1) x0 y0 x1 y1 hsv c.clean =
      some (true, (d.setpixelImpl s'.point.1 s'.point.2 c1).2) := by
    rw [qpLine, if_neg hne, if_neg (by rw [h.validateOk]; decide), if_neg (by rw [h.commsStart]; decide)]
    exact Option.map_eq_some_iff.mpr ⟨_, hloop, Prod.ext ((Bool.true_and _).trans hok) rfl⟩
  refine ⟨_, hrun, ?_⟩
  obtain ⟨m, hm, hsent⟩ := qpLine_sent h hne hsv c hrun
  have hmn : m = n := by
    rcases Nat.lt_trichotomy m n with hlt | heq | hlt
    · exact absurd hm.atEnd (hend.before m hlt)
    · exact heq
    · exact absurd hend.atEnd (hm.before n hlt)
  rw [hsent, hmn]

end Slanted

/-- A line is drawn just where twice its error fits in 16 bits all the way. -/
theorem qp_line_draws_iff (d : DrawDriver ν) (h : Succeeds d) (x0 y0 x1 y1 : UInt16)
    (hstart : InRange (place x0 y0)) (hstop : InRange (place x1 y1)) (hsv : Hsv888) (c : Canvas ν) :
    DrawsLine d x0 y0 x1 y1 hsv c ↔ LineFits (place x0 y0) (place x1 y1) := by
  by_cases hflat : x0 = x1 ∨ y0 = y1
  · exact iff_of_true (qpLine_flat h hstart hstop hflat hsv c) (lineFits_flat hstart hstop hflat)
  have hx : 0 < span (place x0 y0).1 (place x1 y1).1 := by
    rw [Nat.pos_iff_ne_zero, Ne, span_eq_zero]
    exact fun heq => hflat (.inl (UInt16.toNat_inj.mp heq))
  have hy : 0 < span (place x0 y0).2 (place x1 y1).2 := by
    rw [Nat.pos_iff_ne_zero, Ne, span_eq_zero]
    exact fun heq => hflat (.inr (UInt16.toNat_inj.mp heq))
  rw [LineFits]
  split
  · rename_i hle
    rw [← lead_le_iff hle hx]
    constructor
    · rintro ⟨fuel, c', hrun, hline⟩ k hk
      by_contra hover
      obtain ⟨n, hn, hpixels⟩ := qpLine_sent h hflat hsv c hrun
      rw [hpixels] at hline
      exact flat_not_line _ _ hstart hstop hle ⟨k, hk, by omega⟩ hn hline
    · intro hfit
      obtain ⟨hends, hpixels⟩ := flat_fits hstart hstop hle hfit
      obtain ⟨c', hrun, hsent⟩ := qpLine_ends h hflat hsv c hends
      refine ⟨_, c', hrun, ?_⟩
      rw [hsent, hpixels, IsLine, if_pos hle]
      exact ⟨_, ideal_follows _ _ hle, .refl _⟩
  · rename_i hlt
    have hle := Nat.le_of_not_le hlt
    rw [← lead_le_iff hle hy]
    constructor
    · rintro ⟨fuel, c', hrun, hline⟩ k hk
      by_contra hover
      obtain ⟨n, hn, hpixels⟩ := qpLine_sent h hflat hsv c hrun
      rw [hpixels] at hline
      exact steep_not_line hstart hstop (Nat.lt_of_not_le hlt) ⟨k, hk, by omega⟩ hn hline
    · intro hfit
      obtain ⟨hends, hpixels⟩ := steep_fits hstart hstop hle hfit
      obtain ⟨c', hrun, hsent⟩ := qpLine_ends h hflat hsv c hends
      refine ⟨_, c', hrun, ?_⟩
      rw [hsent, IsLine, if_neg hlt, hpixels]
      exact ⟨_, ideal_follows _ _ hle, .refl _⟩

theorem qp_line_draws_iff_short :
    DrawsLine plainDriver 2 3 9 6 ⟨0, 0, 255⟩ blankCanvas ↔ LineFits (place 2 3) (place 9 6) :=
  qp_line_draws_iff plainDriver plainDriver_succeeds 2 3 9 6 (by decide) (by decide) ⟨0, 0, 255⟩ blankCanvas

/-- From (0, 0) to (16383, 1) the row changes twice in column 8192. -/
theorem qp_line_long_fails : ¬DrawsLine plainDriver 0 0 16383 1 ⟨0, 0, 255⟩ blankCanvas := by
  rintro ⟨fuel, c', hrun, hline⟩
  obtain ⟨n, hn, hpixels⟩ := qpLine_sent plainDriver_succeeds (by decide) ⟨0, 0, 255⟩ blankCanvas hrun
  rw [hpixels] at hline
  have hpeak := two_mul_peak 16383 1
  rw [Nat.gcd_one_right] at hpeak
  have hover : ∃ k, k < 16383 ∧ 16383 < lead 16383 1 k := by
    by_contra hc
    have hall : ∀ k < 16383, lead 16383 1 k ≤ (16383 : Nat) := fun k hk => by
      by_contra hk'
      exact hc ⟨k, hk, by omega⟩
    have hfits := (lead_le_iff (by decide) (by decide) 16383).mp hall
    omega
  exact flat_not_line (place 0 0) (place 16383 1) (by decide) (by decide) (by decide) hover hn hline

end DrawDriver
end Painter
end VialQmk
