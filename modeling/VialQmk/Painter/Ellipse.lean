import VialQmk.Painter.Arc
import VialQmk.Painter.Rect

/-!
# Painter.Ellipse

`qp_ellipse` (`qp_draw_ellipse.c`), with calls of the driver that may fail.

* `Sends`: what has been sent lies in an area, and runs are no longer than a bound.
* `helper_sends`, `arcLoop_sends`: so do a pass and a loop.
* `qp_ellipse_draws_iff`: just which ellipses end and stay inside of their sizes and of what has been filled.
-/

namespace VialQmk
namespace Painter

namespace DrawDriver

variable {ν : Type} (d : DrawDriver ν)

/-- Goes on with the next call if the last one has not failed. -/
def andThen (r : Bool × Canvas ν) (next : Canvas ν → Bool × Canvas ν) : Bool × Canvas ν :=
  if r.1 then next r.2 else r

def ellipseHelperImpl (centerx centery offsetx offsety : Nat) (filled : Bool) (c : Canvas ν) : Bool × Canvas ν :=
  let xpx := toUInt16 (toInt16 (toInt16 centerx + toInt16 offsetx))
  let xmx := toUInt16 (toInt16 (toInt16 centerx - toInt16 offsetx))
  let ypy := toUInt16 (toInt16 (toInt16 centery + toInt16 offsety))
  let ymy := toUInt16 (toInt16 (toInt16 centery - toInt16 offsety))
  if offsetx = 0 then andThen (d.setpixelImpl xpx ypy c) (d.setpixelImpl xpx ymy)
  else if filled then
    andThen (d.fillrectHelperImpl xpx ypy xmx ypy c) fun c =>
      if offsety > 0 then d.fillrectHelperImpl xpx ymy xmx ymy c else (true, c)
  else
    andThen (andThen (andThen (d.setpixelImpl xpx ypy c) (d.setpixelImpl xpx ymy)) (d.setpixelImpl xmx ypy))
      (d.setpixelImpl xmx ymy)

def arcLoop (z : ArcSizes) (draw : ArcState → Canvas ν → Bool × Canvas ν) :
    Nat → ArcState → Canvas ν → Option (Bool × Canvas ν)
  | 0, _, _ => none
  | fuel + 1, s, c =>
    if z.Guard s then
      if (draw s c).1 then arcLoop z draw fuel (z.step s) (draw s c).2 else some (false, (draw s c).2)
    else some (true, c)

/-- What the first loop draws, where `dx` goes up, and what the second one draws, where `dy` does. -/
def drawTop (x y : Nat) (filled : Bool) (s : ArcState) (c : Canvas ν) : Bool × Canvas ν :=
  d.ellipseHelperImpl x y (toUInt16 s.rise) (toUInt16 s.fall) filled c

def drawSide (x y : Nat) (filled : Bool) (s : ArcState) (c : Canvas ν) : Bool × Canvas ν :=
  d.ellipseHelperImpl x y (toUInt16 s.fall) (toUInt16 s.rise) filled c

def qpEllipse (fuel : Nat) (x y sizex sizey : UInt16) (hsv : Hsv888) (filled : Bool) (c : Canvas ν) :
    Option (Bool × Canvas ν) :=
  if d.validateOk = false then some (false, c)
  else
    let c := d.fillPixdata (max sizex.toNat sizey.toNat) hsv c
    if d.commsStart = false then some (false, c)
    else
      (arcLoop (arcSizes sizex.toNat sizey.toNat) (d.drawTop x.toNat y.toNat filled) fuel
        ((arcSizes sizex.toNat sizey.toNat).start sizey.toNat) c).bind fun top =>
          (arcLoop (arcSizes sizey.toNat sizex.toNat) (d.drawSide x.toNat y.toNat filled) fuel
            ((arcSizes sizey.toNat sizex.toNat).start sizex.toNat) top.2).map fun side =>
              (top.1 && side.1, side.2)

variable {d} {area : Nat × Nat → Prop} {run : Nat} {c c' c'' : Canvas ν}

/-- From one canvas to the other pixels go out in this area only, out of the first pixels of the buffer, and no
area that is set is wider than a run may be. -/
structure Sends (d : DrawDriver ν) (area : Nat × Nat → Prop) (run : Nat) (c c' : Canvas ν) : Prop where
  buffer : c'.buffer = c.buffer
  sent : ∀ e ∈ c'.sent, e ∈ c.sent ∨ area e.1 ∧ ∃ i < min run d.numPixelsInBuffer, e.2 = c.buffer i
  windows : ∀ win ∈ c'.windows, win ∈ c.windows ∨ win.width ≤ run

theorem Sends.refl (c : Canvas ν) : Sends d area run c c :=
  ⟨rfl, fun _ he => .inl he, fun _ hw => .inl hw⟩

theorem Sends.trans (h : Sends d area run c c') (h' : Sends d area run c' c'') : Sends d area run c c'' where
  buffer := h'.buffer.trans h.buffer
  sent := by
    intro e he
    rcases h'.sent e he with hold | hnew
    · exact h.sent e hold
    · rw [h.buffer] at hnew
      exact .inr hnew
  windows := by
    intro win hwin
    rcases h'.windows win hwin with hold | hnew
    · exact h.windows win hold
    · exact .inr hnew

variable {r : Bool × Canvas ν} (x : Nat)

theorem andThen_sends {next : Canvas ν → Bool × Canvas ν} (h : Sends d area run c r.2)
    (hnext : ∀ c, Sends d area run c (next c).2) : Sends d area run c (andThen r next).2 := by
  rw [andThen]
  split
  · exact h.trans (hnext _)
  · exact h

theorem viewport_sends {left top right bottom : Nat} (hrun : right - left + 1 ≤ run) (c : Canvas ν) :
    Sends d area run c (d.viewport left top right bottom c).2 where
  buffer := rfl
  sent := fun _ he => .inl he
  windows := by
    intro win hwin
    refine (List.mem_append.mp hwin).imp_right fun hnew => ?_
    rw [List.mem_singleton.mp hnew]
    exact hrun

theorem pixdata_sends {count : Nat} (c : Canvas ν) (harea : ∀ i < count, area (c.window.pixel (c.streamed + i)))
    (hrun : count ≤ run) (hfits : count ≤ d.numPixelsInBuffer) : Sends d area run c (d.pixdata count c).2 where
  buffer := rfl
  sent := by
    intro e he
    refine (List.mem_append.mp he).imp_right fun hnew => ?_
    obtain ⟨i, hi, rfl⟩ := List.mem_map.mp hnew
    have hlt := List.mem_range.mp hi
    exact ⟨harea i hlt, i, by omega, rfl⟩
  windows := fun _ hw => .inl hw

theorem transmit_sends (remaining : Nat) (c : Canvas ν)
    (harea : ∀ i < remaining, area (c.window.pixel (c.streamed + i))) (hrun : remaining ≤ run) :
    Sends d area run c (d.transmit remaining c).2 := by
  fun_induction transmit d remaining c with
  | case1 c => exact .refl c
  | case2 remaining c hne count hok ih =>
    have hcount : count ≤ remaining := Nat.min_le_left _ _
    refine (pixdata_sends c (fun i hi => harea i (by omega)) (by omega) (Nat.min_le_right _ _)).trans (ih ?_ (by omega))
    intro i hi
    show area (c.window.pixel (c.streamed + count + i))
    rw [Nat.add_assoc]
    exact harea _ (by omega)
  | case3 remaining c hne count hok =>
    have hcount : count ≤ remaining := Nat.min_le_left _ _
    exact pixdata_sends c (fun i hi => harea i (by omega)) (by omega) (Nat.min_le_right _ _)

theorem setpixelImpl_sends {x y : Nat} (harea : area (x, y)) (hrun : 1 ≤ run) (c : Canvas ν) :
    Sends d area run c (d.setpixelImpl x y c).2 := by
  have hview : Sends d area run c (d.viewport x y x y c).2 := viewport_sends (by omega) c
  rw [setpixelImpl]
  simp only
  split
  · refine hview.trans (pixdata_sends _ (fun i hi => ?_) hrun d.numPixelsInBuffer_pos)
    have hzero : i = 0 := Nat.lt_one_iff.mp hi
    rw [hzero]
    simpa [viewport, Window.pixel, Window.width, Window.height, Nat.mod_one] using harea
  · exact hview

theorem fillrow_sends {left right y : Nat} (hwidth : max left right - min left right + 1 ≤ run)
    (hsmall : max left right - min left right + 1 < 65536)
    (harea : ∀ x, min left right ≤ x → x ≤ max left right → area (x, y)) (c : Canvas ν) :
    Sends d area run c (d.fillrectHelperImpl left y right y c).2 := by
  rw [fillrectHelperImpl]
  simp only [Nat.min_self, Nat.max_self, Nat.sub_self, Nat.mod_eq_of_lt hsmall]
  refine (viewport_sends hwidth c).trans (transmit_sends _ _ (fun i hi => ?_) (by omega))
  have hhas := Window.pixel_has ⟨min left right, y, max left right, y⟩ (i := i) (by simp only; omega)
    (Nat.le_refl y) (by simp only [Window.width, Window.height, Nat.sub_self]; omega)
  have hplace : (Window.mk (min left right) y (max left right) y).pixel i =
      (((Window.mk (min left right) y (max left right) y).pixel i).1, y) :=
    Prod.ext rfl (Nat.le_antisymm hhas.2.2 hhas.2.1)
  show area ((Window.mk (min left right) y (max left right) y).pixel (0 + i))
  rw [Nat.zero_add, hplace]
  exact harea _ hhas.1.1 hhas.1.2

structure Keeps (c c' : Canvas ν) : Prop where
  sent : c.sent ⊆ c'.sent
  windows : c.windows ⊆ c'.windows

theorem Keeps.refl (c : Canvas ν) : Keeps c c := ⟨List.Subset.refl _, List.Subset.refl _⟩

theorem Keeps.trans (h : Keeps c c') (h' : Keeps c' c'') : Keeps c c'' :=
  ⟨List.Subset.trans h.sent h'.sent, List.Subset.trans h.windows h'.windows⟩

theorem viewport_keeps (left top right bottom : Nat) (c : Canvas ν) :
    Keeps c (d.viewport left top right bottom c).2 :=
  ⟨List.Subset.refl _, List.subset_append_left _ _⟩

theorem pixdata_keeps (count : Nat) (c : Canvas ν) : Keeps c (d.pixdata count c).2 :=
  ⟨List.subset_append_left _ _, List.Subset.refl _⟩

theorem transmit_keeps (remaining : Nat) (c : Canvas ν) : Keeps c (d.transmit remaining c).2 := by
  fun_induction transmit d remaining c with
  | case1 c => exact .refl c
  | case2 remaining c hne count hok ih => exact (pixdata_keeps count c).trans ih
  | case3 remaining c hne count hok => exact pixdata_keeps (d := d) count c

theorem setpixelImpl_keeps (y : Nat) (c : Canvas ν) : Keeps c (d.setpixelImpl x y c).2 := by
  rw [setpixelImpl]
  simp only
  split
  · exact (viewport_keeps x y x y c).trans (pixdata_keeps 1 _)
  · exact viewport_keeps (d := d) x y x y c

theorem fillrectHelperImpl_keeps (left top right bottom : Nat) (c : Canvas ν) :
    Keeps c (d.fillrectHelperImpl left top right bottom c).2 :=
  (viewport_keeps _ _ _ _ c).trans (transmit_keeps _ _)

theorem andThen_keeps {next : Canvas ν → Bool × Canvas ν} (h : Keeps c r.2) (hnext : ∀ c, Keeps c (next c).2) :
    Keeps c (andThen r next).2 := by
  rw [andThen]
  split
  · exact h.trans (hnext _)
  · exact h

theorem ellipseHelperImpl_keeps (y u v : Nat) (filled : Bool) (c : Canvas ν) :
    Keeps c (d.ellipseHelperImpl x y u v filled c).2 := by
  rw [ellipseHelperImpl]
  split
  · exact andThen_keeps (setpixelImpl_keeps _ _ c) fun c => setpixelImpl_keeps _ _ c
  · split
    · refine andThen_keeps (fillrectHelperImpl_keeps _ _ _ _ c) fun c => ?_
      split
      · exact fillrectHelperImpl_keeps _ _ _ _ c
      · exact .refl c
    · exact andThen_keeps (andThen_keeps (andThen_keeps (setpixelImpl_keeps _ _ c) fun c => setpixelImpl_keeps _ _ c)
        fun c => setpixelImpl_keeps _ _ c) fun c => setpixelImpl_keeps _ _ c

/-- The pixels that are no farther from the centre than the sizes. -/
def Within (x y sizex sizey : Nat) (p : Nat × Nat) : Prop :=
  (x ≤ p.1 + sizex ∧ p.1 ≤ x + sizex) ∧ y ≤ p.2 + sizey ∧ p.2 ≤ y + sizey

theorem toInt16_emod (v : Int) : toInt16 v % 65536 = v % 65536 := by
  rw [toInt16]
  omega

theorem place_diff (a b : Nat) : toUInt16 (toInt16 (toInt16 a - toInt16 b)) = toUInt16 ((a : Int) - b) := by
  rw [toUInt16, toInt16_emod, Int.sub_emod, toInt16_emod, toInt16_emod, ← Int.sub_emod, toUInt16]

theorem place_add (a b : Nat) : toUInt16 (toInt16 (toInt16 a + toInt16 b)) = (a + b) % 65536 := by
  rw [toUInt16, toInt16_emod, Int.add_emod, toInt16_emod, toInt16_emod, ← Int.add_emod]
  omega

theorem place_sub {a b : Nat} (h : b ≤ a) (ha : a < 65536) :
    toUInt16 (toInt16 (toInt16 a - toInt16 b)) = a - b := by
  rw [place_diff, toUInt16]
  omega

theorem place_under {a b : Nat} (h : a < b) (hb : b < 65536) :
    toUInt16 (toInt16 (toInt16 a - toInt16 b)) = a + 65536 - b := by
  rw [place_diff, toUInt16]
  omega

/-- The two ends of a row are an even number of columns apart, so that it is never as wide as all of them. -/
theorem row_lt (u : Nat) :
    max ((x + u) % 65536) (toUInt16 ((x : Int) - u)) - min ((x + u) % 65536) (toUInt16 ((x : Int) - u)) + 1 < 65536 := by
  have hparity : toUInt16 ((x : Int) - u) % 2 = (x + u) % 65536 % 2 := by
    rw [toUInt16]
    omega
  have hleft : toUInt16 ((x : Int) - u) < 65536 := by
    rw [toUInt16]
    omega
  have hright : (x + u) % 65536 < 65536 := Nat.mod_lt _ (Nat.succ_pos _)
  omega

section Pass

variable {x y sizex sizey : Nat} {filled : Bool}

/-- All pixels at the sizes from the centre have coordinates of 16 bits. -/
structure BoxFits (x y sizex sizey : Nat) : Prop where
  left : sizex ≤ x
  right : x + sizex < 65536
  top : sizey ≤ y
  bottom : y + sizey < 65536

theorem helper_sends (hbox : BoxFits x y sizex sizey) {u v : Nat} (hu : u ≤ sizex) (hv : v ≤ sizey) (hrun : 1 ≤ run)
    (hrow : filled = true → u ≠ 0 → 2 * u + 1 ≤ run) (c : Canvas ν) :
    Sends d (Within x y sizex sizey) run c (d.ellipseHelperImpl x y u v filled c).2 := by
  have hleft := hbox.left
  have hright := hbox.right
  have htop := hbox.top
  have hbottom := hbox.bottom
  rw [ellipseHelperImpl]
  simp only [place_add, place_sub (Nat.le_trans hu hleft) (show x < 65536 by omega),
    place_sub (Nat.le_trans hv htop) (show y < 65536 by omega), Nat.mod_eq_of_lt (show x + u < 65536 by omega),
    Nat.mod_eq_of_lt (show y + v < 65536 by omega)]
  have hset : ∀ px py c, x ≤ px + u → px ≤ x + u → y ≤ py + v → py ≤ y + v →
      Sends d (Within x y sizex sizey) run c (d.setpixelImpl px py c).2 := by
    intro px py c h1 h2 h3 h4
    apply setpixelImpl_sends _ hrun
    rw [Within]
    simp only
    omega
  split
  · exact andThen_sends (hset _ _ _ (by omega) (by omega) (by omega) (by omega)) fun c =>
      hset _ _ _ (by omega) (by omega) (by omega) (by omega)
  · rename_i hne
    split
    · rename_i hfilled
      have hwide := hrow hfilled hne
      have hfill : ∀ py c, y ≤ py + v → py ≤ y + v →
          Sends d (Within x y sizex sizey) run c (d.fillrectHelperImpl (x + u) py (x - u) py c).2 := by
        intro py c h3 h4
        apply fillrow_sends (by omega) (by omega)
        intro px h1 h2
        rw [Within]
        simp only
        omega
      refine andThen_sends (hfill _ _ (by omega) (by omega)) fun c => ?_
      split
      · exact hfill _ _ (by omega) (by omega)
      · exact .refl c
    · refine andThen_sends (andThen_sends (andThen_sends ?_ fun c => ?_) fun c => ?_) fun c => ?_
      · exact hset _ _ _ (by omega) (by omega) (by omega) (by omega)
      · exact hset _ _ _ (by omega) (by omega) (by omega) (by omega)
      · exact hset _ _ _ (by omega) (by omega) (by omega) (by omega)
      · exact hset _ _ _ (by omega) (by omega) (by omega) (by omega)

end Pass

section Loop

variable {z : ArcSizes} {draw : ArcState → Canvas ν → Bool × Canvas ν}

theorem arcLoop_ends (draw : ArcState → Canvas ν → Bool × Canvas ν) {n : Nat} {s : ArcState}
    (hend : ¬z.Guard (z.step^[n] s)) (c : Canvas ν) {fuel : Nat} (hfuel : n < fuel) : ∃ result, arcLoop z draw fuel s c = some result := by
  induction fuel generalizing n s c with
  | zero => exact absurd hfuel (Nat.not_lt_zero n)
  | succ fuel ih =>
    rw [arcLoop]
    split
    · rename_i hguard
      split
      · cases n with
        | zero => exact absurd hguard hend
        | succ n => exact ih (n := n) hend _ (by omega)
      · exact ⟨_, rfl⟩
    · exact ⟨_, rfl⟩

theorem arcLoop_never (h : ∀ s, z.Guard s) (hdraw : ∀ s c, (draw s c).1 = true) (fuel : Nat) (s : ArcState)
    (c : Canvas ν) : arcLoop z draw fuel s c = none := by
  induction fuel generalizing s c with
  | zero => rfl
  | succ fuel ih =>
    rw [arcLoop, if_pos (h s), if_pos (hdraw s c)]
    exact ih _ _

theorem arcLoop_sends {fuel : Nat} {s : ArcState} {c c' : Canvas ν} {ret : Bool}
    (hdraw : ∀ n, (∀ j ≤ n, z.Guard (z.step^[j] s)) → ∀ c, Sends d area run c (draw (z.step^[n] s) c).2)
    (hloop : arcLoop z draw fuel s c = some (ret, c')) : Sends d area run c c' := by
  induction fuel generalizing s c with
  | zero => exact absurd hloop.symm (Option.some_ne_none _)
  | succ fuel ih =>
    rw [arcLoop] at hloop
    split at hloop
    · rename_i hguard
      have hfirst : Sends d area run c (draw s c).2 := hdraw 0 (fun j hj => by rwa [Nat.le_zero.mp hj]) c
      split at hloop
      · refine hfirst.trans (ih (fun n hn => hdraw (n + 1) fun j hj => ?_) hloop)
        cases j with
        | zero => exact hguard
        | succ j => exact hn j (Nat.le_of_succ_le_succ hj)
      · obtain ⟨-, rfl⟩ := Prod.mk.inj (Option.some.inj hloop)
        exact hfirst
    · obtain ⟨-, rfl⟩ := Prod.mk.inj (Option.some.inj hloop)
      exact .refl c

theorem arcLoop_keeps {fuel : Nat} {s : ArcState} {c c' : Canvas ν} {ret : Bool}
    (hdraw : ∀ s c, Keeps c (draw s c).2) (hloop : arcLoop z draw fuel s c = some (ret, c')) : Keeps c c' := by
  induction fuel generalizing s c with
  | zero => exact absurd hloop.symm (Option.some_ne_none _)
  | succ fuel ih =>
    rw [arcLoop] at hloop
    split at hloop
    · split at hloop
      · exact (hdraw s c).trans (ih hloop)
      · obtain ⟨-, rfl⟩ := Prod.mk.inj (Option.some.inj hloop)
        exact hdraw s c
    · obtain ⟨-, rfl⟩ := Prod.mk.inj (Option.some.inj hloop)
      exact .refl c

theorem arcLoop_first {fuel : Nat} {s : ArcState} {c c' : Canvas ν} {ret : Bool} (hguard : z.Guard s)
    (hdraw : ∀ s c, Keeps c (draw s c).2) (hloop : arcLoop z draw fuel s c = some (ret, c')) :
    Keeps (draw s c).2 c' := by
  cases fuel with
  | zero => exact absurd hloop.symm (Option.some_ne_none _)
  | succ fuel =>
    rw [arcLoop, if_pos hguard] at hloop
    split at hloop
    · exact arcLoop_keeps hdraw hloop
    · obtain ⟨-, rfl⟩ := Prod.mk.inj (Option.some.inj hloop)
      exact .refl _

end Loop

theorem andThen_ok {next : Canvas ν → Bool × Canvas ν} (h : r.1 = true) : andThen r next = next r.2 := by
  rw [andThen, if_pos h]

theorem fillrectHelperImpl_fst (h : Succeeds d) (left top right bottom : Nat) (c : Canvas ν) :
    (d.fillrectHelperImpl left top right bottom c).1 = true :=
  (transmit_ok h _ _).1

theorem setpixelImpl_mem (h : Succeeds d) (x y : Nat) (c : Canvas ν) :
    ∃ v, ((x, y), v) ∈ (d.setpixelImpl x y c).2.sent := by
  obtain ⟨-, -, hsent⟩ := setpixelImpl_ok h x y c
  rw [hsent]
  exact ⟨_, List.mem_append_right _ List.mem_cons_self⟩

theorem fillrow_mem (h : Succeeds d) {left right : Nat} (hsmall : max left right - min left right + 1 < 65536) (y : Nat)
    (c : Canvas ν) {x : Nat} (hx : x = left ∨ x = right) :
    ∃ v, ((x, y), v) ∈ (d.fillrectHelperImpl left y right y c).2.sent := by
  obtain ⟨-, -, hsent⟩ := fillrectHelperImpl_ok h left y right y rfl rfl (Nat.min_self y) (Nat.max_self y) hsmall
    (by rw [Nat.sub_self]; decide) c
  obtain ⟨v, hv⟩ : ∃ v, ((x, y), v) ∈ (List.range (_ * _)).map fun i =>
      ((Window.mk (min left right) y (max left right) y).pixel i, c.buffer (i % d.numPixelsInBuffer)) :=
    ⟨_, (Window.mem_window ⟨min left right, y, max left right, y⟩
      (show min left right ≤ max left right by omega) (Nat.le_refl y) _ (x, y) _).mpr
        ⟨⟨by simp only; omega, Nat.le_refl y, Nat.le_refl y⟩, rfl⟩⟩
  rw [hsent]
  refine ⟨v, List.mem_append_right _ ?_⟩
  simp only [area, Nat.zero_add]
  exact hv

theorem ellipseHelperImpl_fst (h : Succeeds d) (x y u v : Nat) (filled : Bool) (c : Canvas ν) :
    (d.ellipseHelperImpl x y u v filled c).1 = true := by
  have hset := fun px py c => (setpixelImpl_ok h px py c).1
  rw [ellipseHelperImpl]
  split
  · rw [andThen_ok (hset _ _ _)]
    exact hset _ _ _
  · split
    · rw [andThen_ok (fillrectHelperImpl_fst h _ _ _ _ _)]
      split
      · exact fillrectHelperImpl_fst h _ _ _ _ _
      · rfl
    · rw [andThen_ok (hset _ _ _), andThen_ok (hset _ _ _), andThen_ok (hset _ _ _)]
      exact hset _ _ _

theorem helper_right_left (h : Succeeds d) {u : Nat} (hu : u ≠ 0) (x y v : Nat) (filled : Bool) (c : Canvas ν) {px : Nat}
    (hpx : px = (x + u) % 65536 ∨ px = toUInt16 (toInt16 (toInt16 x - toInt16 u))) :
    ∃ e ∈ (d.ellipseHelperImpl x y u v filled c).2.sent, e.1.1 = px := by
  have hset := fun px py c => (setpixelImpl_ok h px py c).1
  have hkeep : ∀ px py {e : (Nat × Nat) × ν} {c : Canvas ν}, e ∈ c.sent → e ∈ (d.setpixelImpl px py c).2.sent :=
    fun px py _ c he => (setpixelImpl_keeps px py c).sent he
  have hsmall : max ((x + u) % 65536) (toUInt16 (toInt16 (toInt16 x - toInt16 u))) -
      min ((x + u) % 65536) (toUInt16 (toInt16 (toInt16 x - toInt16 u))) + 1 < 65536 := by
    rw [place_diff]
    exact row_lt x u
  rw [ellipseHelperImpl]
  simp only [place_add, if_neg hu]
  generalize (x + u) % 65536 = right at hpx hsmall ⊢
  generalize toUInt16 (toInt16 (toInt16 x - toInt16 u)) = left at hpx hsmall ⊢
  split
  · obtain ⟨val, hval⟩ := fillrow_mem h hsmall ((y + v) % 65536) c hpx
    rw [andThen_ok (fillrectHelperImpl_fst h _ _ _ _ _)]
    split
    · exact ⟨_, (fillrectHelperImpl_keeps _ _ _ _ _).sent hval, rfl⟩
    · exact ⟨_, hval, rfl⟩
  · rw [andThen_ok (hset _ _ _), andThen_ok (hset _ _ _), andThen_ok (hset _ _ _)]
    rcases hpx with rfl | rfl
    · obtain ⟨val, hval⟩ := setpixelImpl_mem h px ((y + v) % 65536) c
      exact ⟨_, hkeep _ _ (hkeep _ _ (hkeep _ _ hval)), rfl⟩
    · obtain ⟨val, hval⟩ := setpixelImpl_mem h px (toUInt16 (toInt16 (toInt16 y - toInt16 v))) _
      exact ⟨_, hval, rfl⟩

theorem helper_below_above (h : Succeeds d) (x y v : Nat) (filled : Bool) (c : Canvas ν) {py : Nat}
    (hpy : py = (y + v) % 65536 ∨ py = toUInt16 (toInt16 (toInt16 y - toInt16 v))) :
    ∃ e ∈ (d.ellipseHelperImpl x y 0 v filled c).2.sent, e.1.2 = py := by
  rw [ellipseHelperImpl]
  simp only [place_add, if_true]
  generalize (y + v) % 65536 = bottom at hpy ⊢
  generalize toUInt16 (toInt16 (toInt16 y - toInt16 v)) = top at hpy ⊢
  rw [andThen_ok (setpixelImpl_ok h _ _ _).1]
  rcases hpy with rfl | rfl
  · obtain ⟨val, hval⟩ := setpixelImpl_mem h ((x + 0) % 65536) py c
    exact ⟨_, (setpixelImpl_keeps _ _ _).sent hval, rfl⟩
  · obtain ⟨val, hval⟩ := setpixelImpl_mem h ((x + 0) % 65536) py _
    exact ⟨_, hval, rfl⟩

/-- The row of a filled ellipse is as wide as it should be, whatever has been filled for it. -/
theorem helper_window {x u : Nat} (hu : u ≠ 0) (hleft : u ≤ x) (hright : x + u < 65536) (y v : Nat) (c : Canvas ν) :
    ∃ win ∈ (d.ellipseHelperImpl x y u v true c).2.windows, win.width = 2 * u + 1 := by
  have hmem : ∀ py, (Window.mk (min (x + u) (x - u)) (min py py) (max (x + u) (x - u)) (max py py)) ∈
      (d.fillrectHelperImpl (x + u) py (x - u) py c).2.windows := fun py =>
    (transmit_keeps _ _).windows (List.mem_append_right _ List.mem_cons_self)
  have hwidth : ∀ top bottom, (Window.mk (min (x + u) (x - u)) top (max (x + u) (x - u)) bottom).width = 2 * u + 1 := by
    intro top bottom
    rw [Window.width]
    simp only
    omega
  rw [ellipseHelperImpl]
  simp only [place_add, if_neg hu, if_true, place_sub hleft (show x < 65536 by omega), Nat.mod_eq_of_lt hright]
  generalize (y + v) % 65536 = bottom
  rw [andThen]
  split
  · split
    · exact ⟨_, (fillrectHelperImpl_keeps _ _ _ _ _).windows (hmem bottom), hwidth _ _⟩
    · exact ⟨_, hmem bottom, hwidth _ _⟩
  · exact ⟨_, hmem bottom, hwidth _ _⟩

def acting (d : DrawDriver ν) (validateOk commsStart : Bool) (answer : Nat → Bool) : DrawDriver ν :=
  { d with
    validateOk := validateOk
    commsStart := commsStart
    answer := answer }

def filledPixels (d : DrawDriver ν) (sizex sizey : Nat) : Nat := min d.numPixelsInBuffer (max sizex sizey)

/-- Whatever the calls answer, the function ends, what is sent has the colour and is inside of the sizes, and each
run that is set is as long at most as what has been filled, or all of the buffer has been. -/
def DrawsEllipse (d : DrawDriver ν) (x y sizex sizey : UInt16) (hsv : Hsv888) (filled : Bool) (c : Canvas ν) : Prop :=
  ∀ validateOk commsStart answer, ∃ fuel ret c',
    (d.acting validateOk commsStart answer).qpEllipse fuel x y sizex sizey hsv filled c.clean = some (ret, c') ∧
      (∀ e ∈ c'.sent, Within x.toNat y.toNat sizex.toNat sizey.toNat e.1 ∧ e.2 = d.paletteConvert hsv) ∧
      ∀ win ∈ c'.windows, win.width ≤ filledPixels d sizex.toNat sizey.toNat ∨
        filledPixels d sizex.toNat sizey.toNat = d.numPixelsInBuffer

structure EllipseProducts (sizex sizey : Nat) : Prop where
  top : (arcSizes sizex sizey).ProductsFit sizey
  side : (arcSizes sizey sizex).ProductsFit sizex

structure EllipseFits (d : DrawDriver ν) (x y sizex sizey : Nat) (filled : Bool) : Prop where
  someSize : ¬(sizex = 0 ∧ sizey = 0)
  box : BoxFits x y sizex sizey
  run : filled = true → sizex ≠ 0 → 2 * sizex + 1 ≤ max sizex sizey ∨ d.numPixelsInBuffer ≤ max sizex sizey

section Ellipse

variable {x y sizex sizey : Nat} {filled : Bool}

def longestRun (sizex : Nat) (filled : Bool) : Nat := if filled = true ∧ sizex ≠ 0 then 2 * sizex + 1 else 1

theorem one_le_longestRun (sizex : Nat) (filled : Bool) : 1 ≤ longestRun sizex filled := by
  rw [longestRun]
  split <;> omega

theorem row_le_longestRun {u : Nat} (hu : u ≤ sizex) (hfilled : filled = true) (hne : u ≠ 0) :
    2 * u + 1 ≤ longestRun sizex filled := by
  rw [longestRun, if_pos ⟨hfilled, by omega⟩]
  omega

theorem top_sends (hne : ¬(sizex = 0 ∧ sizey = 0)) (hproducts : EllipseProducts sizex sizey)
    (hbox : BoxFits x y sizex sizey) {n : Nat}
    (hguard : ∀ j ≤ n, (arcSizes sizex sizey).Guard ((arcSizes sizex sizey).state sizey j)) (c : Canvas ν) :
    Sends d (Within x y sizex sizey) (longestRun sizex filled) c
      (d.drawTop x y filled ((arcSizes sizex sizey).state sizey n) c).2 := by
  have hleft := hbox.left
  have hright := hbox.right
  have htop := hbox.top
  have hbottom := hbox.bottom
  obtain ⟨hrise, hn, v, hv, hfall⟩ := drawn_head hne hproducts.top hguard
  rw [drawTop, hrise, hfall, toUInt16_natCast (by omega), toUInt16_natCast (by omega)]
  exact helper_sends hbox hn hv (one_le_longestRun _ _) (row_le_longestRun hn) c

theorem side_sends (hne : ¬(sizex = 0 ∧ sizey = 0)) (hproducts : EllipseProducts sizex sizey)
    (hbox : BoxFits x y sizex sizey) {n : Nat}
    (hguard : ∀ j ≤ n, (arcSizes sizey sizex).Guard ((arcSizes sizey sizex).state sizex j)) (c : Canvas ν) :
    Sends d (Within x y sizex sizey) (longestRun sizex filled) c
      (d.drawSide x y filled ((arcSizes sizey sizex).state sizex n) c).2 := by
  have hleft := hbox.left
  have hright := hbox.right
  have htop := hbox.top
  have hbottom := hbox.bottom
  obtain ⟨hrise, hn, v, hv, hfall⟩ := drawn_head (fun h => hne ⟨h.2, h.1⟩) hproducts.side hguard
  rw [drawSide, hrise, hfall, toUInt16_natCast (by omega), toUInt16_natCast (by omega)]
  exact helper_sends hbox hv hn (one_le_longestRun _ _) (row_le_longestRun hv) c

end Ellipse

section Draws

variable {x y sizex sizey : UInt16} {filled : Bool} {hsv : Hsv888}

theorem qpEllipse_eq (hvalid : d.validateOk = true) (hcomms : d.commsStart = true) (fuel : Nat) (c : Canvas ν) :
    d.qpEllipse fuel x y sizex sizey hsv filled c =
      (arcLoop (arcSizes sizex.toNat sizey.toNat) (d.drawTop x.toNat y.toNat filled) fuel
        ((arcSizes sizex.toNat sizey.toNat).start sizey.toNat)
        (d.fillPixdata (max sizex.toNat sizey.toNat) hsv c)).bind fun top =>
          (arcLoop (arcSizes sizey.toNat sizex.toNat) (d.drawSide x.toNat y.toNat filled) fuel
            ((arcSizes sizey.toNat sizex.toNat).start sizex.toNat) top.2).map fun side =>
              (top.1 && side.1, side.2) := by
  rw [qpEllipse, if_neg (by rw [hvalid]; decide)]
  simp only
  rw [if_neg (by rw [hcomms]; decide)]

theorem qpEllipse_loops (hvalid : d.validateOk = true) (hcomms : d.commsStart = true) {fuel : Nat} {ret : Bool}
    {c c' : Canvas ν} (hrun : d.qpEllipse fuel x y sizex sizey hsv filled c = some (ret, c')) :
    ∃ ret1 ret2 c1,
      arcLoop (arcSizes sizex.toNat sizey.toNat) (d.drawTop x.toNat y.toNat filled) fuel
        ((arcSizes sizex.toNat sizey.toNat).state sizey.toNat 0)
        (d.fillPixdata (max sizex.toNat sizey.toNat) hsv c) = some (ret1, c1) ∧
      arcLoop (arcSizes sizey.toNat sizex.toNat) (d.drawSide x.toNat y.toNat filled) fuel
        ((arcSizes sizey.toNat sizex.toNat).state sizex.toNat 0) c1 = some (ret2, c') := by
  rw [qpEllipse_eq hvalid hcomms] at hrun
  obtain ⟨⟨ret1, c1⟩, htop, hrest⟩ := Option.bind_eq_some_iff.mp hrun
  obtain ⟨⟨ret2, c2⟩, hside, heq⟩ := Option.map_eq_some_iff.mp hrest
  obtain ⟨-, rfl⟩ := Prod.mk.inj heq
  exact ⟨ret1, ret2, c1, htop, hside⟩

theorem draws_of_fits (hproducts : EllipseProducts sizex.toNat sizey.toNat)
    (h : EllipseFits d x.toNat y.toNat sizex.toNat sizey.toNat filled) (c : Canvas ν) :
    DrawsEllipse d x y sizex sizey hsv filled c := by
  intro validateOk commsStart answer
  have hempty : ∀ {e}, e ∈ c.clean.sent → False := fun he => absurd he List.not_mem_nil
  have hemptyWindows : ∀ {win}, win ∈ c.clean.windows → False := fun hw => absurd hw List.not_mem_nil
  cases validateOk with
  | false => exact ⟨0, false, c.clean, rfl, fun e he => (hempty he).elim, fun win hw => (hemptyWindows hw).elim⟩
  | true =>
  cases commsStart with
  | false =>
    refine ⟨0, false, _, rfl, fun e he => ?_, fun win hw => ?_⟩
    · rw [fillPixdata_eq] at he
      exact (hempty he).elim
    · rw [fillPixdata_eq] at hw
      exact (hemptyWindows hw).elim
  | true =>
  obtain ⟨n, hn⟩ := guard_ends h.someSize hproducts.top
  obtain ⟨m, hm⟩ := guard_ends (fun hz => h.someSize ⟨hz.2, hz.1⟩) hproducts.side
  obtain ⟨⟨ret1, c1⟩, htop⟩ := arcLoop_ends ((d.acting true true answer).drawTop x.toNat y.toNat filled) hn
    ((d.acting true true answer).fillPixdata (max sizex.toNat sizey.toNat) hsv c.clean)
    (show n < max n m + 1 by omega)
  obtain ⟨⟨ret2, c2⟩, hside⟩ := arcLoop_ends ((d.acting true true answer).drawSide x.toNat y.toNat filled) hm
    c1 (show m < max n m + 1 by omega)
  have hsends := (arcLoop_sends (fun n hn c => top_sends h.someSize hproducts h.box hn c) htop).trans
    (arcLoop_sends (fun n hn c => side_sends h.someSize hproducts h.box hn c) hside)
  have hone : 1 ≤ max sizex.toNat sizey.toNat := by
    have hne := h.someSize
    omega
  have hlongest : longestRun sizex.toNat filled ≤ max sizex.toNat sizey.toNat ∨
      (d.acting true true answer).numPixelsInBuffer ≤ max sizex.toNat sizey.toNat := by
    rw [longestRun]
    split
    · rename_i hrow
      exact h.run hrow.1 hrow.2
    · exact .inl hone
  have hsame : (d.acting true true answer).numPixelsInBuffer = d.numPixelsInBuffer := rfl
  refine ⟨max n m + 1, ret1 && ret2, c2, ?_, ?_, ?_⟩
  · rw [qpEllipse_eq rfl rfl, htop, Option.bind_some, hside, Option.map_some]
  · intro e he
    rcases hsends.sent e he with hold | ⟨hwithin, i, hi, hcolour⟩
    · rw [fillPixdata_eq] at hold
      exact (hempty hold).elim
    · refine ⟨hwithin, ?_⟩
      rw [hcolour, fillPixdata_eq]
      simp only
      rw [if_pos (by omega)]
      rfl
  · intro win hwin
    rcases hsends.windows win hwin with hold | hle
    · rw [fillPixdata_eq] at hold
      exact (hemptyWindows hold).elim
    · rw [filledPixels]
      omega

theorem first_passes (hvalid : d.validateOk = true) (hcomms : d.commsStart = true)
    (hproducts : EllipseProducts sizex.toNat sizey.toNat) {fuel : Nat} {ret : Bool} {c c' : Canvas ν}
    (hrun : d.qpEllipse fuel x y sizex sizey hsv filled c = some (ret, c')) :
    (∃ c1, Keeps (d.ellipseHelperImpl x.toNat y.toNat 0 sizey.toNat filled c1).2 c') ∧
      ∃ c1, Keeps (d.ellipseHelperImpl x.toNat y.toNat sizex.toNat 0 filled c1).2 c' := by
  obtain ⟨ret1, ret2, c1, htop, hside⟩ := qpEllipse_loops hvalid hcomms hrun
  have hsizey : sizey.toNat < 32768 := size_lt hproducts.top.two
  have hsizex : sizex.toNat < 32768 := size_lt hproducts.side.two
  obtain ⟨hrise, hfall⟩ := state_zero sizex.toNat hsizey
  obtain ⟨hrise', hfall'⟩ := state_zero sizey.toNat hsizex
  have hkeepTop : ∀ s c, Keeps c (d.drawTop x.toNat y.toNat filled s c).2 := fun s c =>
    ellipseHelperImpl_keeps _ _ _ _ _ c
  have hkeepSide : ∀ s c, Keeps c (d.drawSide x.toNat y.toNat filled s c).2 := fun s c =>
    ellipseHelperImpl_keeps _ _ _ _ _ c
  have hfirst := (arcLoop_first (guard_first hsizey) hkeepTop htop).trans (arcLoop_keeps hkeepSide hside)
  have hsecond := arcLoop_first (guard_first hsizex) hkeepSide hside
  have hzero : toUInt16 0 = 0 := rfl
  constructor
  · rw [drawTop, hrise, hfall, hzero, toUInt16_natCast (by omega)] at hfirst
    exact ⟨_, hfirst⟩
  · rw [drawSide, hrise', hfall', hzero, toUInt16_natCast (by omega)] at hsecond
    exact ⟨_, hsecond⟩

theorem fits_of_draws (hproducts : EllipseProducts sizex.toNat sizey.toNat) {c : Canvas ν}
    (h : DrawsEllipse d x y sizex sizey hsv filled c) : EllipseFits d x.toNat y.toNat sizex.toNat sizey.toNat filled := by
  have hok : Succeeds (d.acting true true fun _ => true) := ⟨rfl, rfl, fun _ => rfl⟩
  obtain ⟨fuel, ret, c', hrun, hsent, hwindows⟩ := h true true fun _ => true
  have hsizey : sizey.toNat < 32768 := size_lt hproducts.top.two
  have hsizex : sizex.toNat < 32768 := size_lt hproducts.side.two
  have hx := x.toNat_lt
  have hy := y.toNat_lt
  obtain ⟨⟨ctop, htop⟩, cside, hside⟩ := first_passes rfl rfl hproducts hrun
  have hcolumn : ∀ {px}, px = (x.toNat + sizex.toNat) % 65536 ∨
      px = toUInt16 (toInt16 (toInt16 x.toNat - toInt16 sizex.toNat)) → sizex.toNat ≠ 0 →
      x.toNat ≤ px + sizex.toNat ∧ px ≤ x.toNat + sizex.toNat := by
    intro px hpx hne
    obtain ⟨e, he, rfl⟩ := helper_right_left hok hne x.toNat y.toNat 0 filled cside hpx
    exact (hsent e (hside.sent he)).1.1
  have hrow : ∀ {py}, py = (y.toNat + sizey.toNat) % 65536 ∨
      py = toUInt16 (toInt16 (toInt16 y.toNat - toInt16 sizey.toNat)) →
      y.toNat ≤ py + sizey.toNat ∧ py ≤ y.toNat + sizey.toNat := by
    intro py hpy
    obtain ⟨e, he, rfl⟩ := helper_below_above hok x.toNat y.toNat sizey.toNat filled ctop hpy
    exact (hsent e (htop.sent he)).1.2
  have hbox : BoxFits x.toNat y.toNat sizex.toNat sizey.toNat := by
    refine ⟨?_, ?_, ?_, ?_⟩
    · by_contra hc
      have := hcolumn (.inr (place_under (a := x.toNat) (b := sizex.toNat) (by omega) (by omega)).symm) (by omega)
      omega
    · by_contra hc
      have := hcolumn (.inl rfl) (by omega)
      omega
    · by_contra hc
      have := hrow (.inr (place_under (a := y.toNat) (b := sizey.toNat) (by omega) (by omega)).symm)
      omega
    · by_contra hc
      have := hrow (.inl rfl)
      omega
  refine ⟨?_, hbox, ?_⟩
  · rintro ⟨hzx, hzy⟩
    have hdraw : ∀ s c, ((d.acting true true fun _ => true).drawTop x.toNat y.toNat filled s c).1 = true :=
      fun s c => ellipseHelperImpl_fst hok _ _ _ _ _ c
    rw [qpEllipse_eq rfl rfl, hzx, hzy, arcLoop_never guard_of_zero hdraw] at hrun
    exact absurd hrun.symm (Option.some_ne_none _)
  · intro hfilled hne
    rw [hfilled] at hside
    obtain ⟨win, hwin, hwidth⟩ :=
      helper_window (d := d.acting true true fun _ => true) hne hbox.left hbox.right y.toNat 0 cside
    have hle := hwindows win (hside.windows hwin)
    rw [hwidth, filledPixels] at hle
    omega

end Draws

/-- An ellipse is drawn as it should be just where it has a size, its pixels have coordinates and its longest run is
filled. -/
theorem qp_ellipse_draws_iff (d : DrawDriver ν) (x y sizex sizey : UInt16)
    (hproducts : EllipseProducts sizex.toNat sizey.toNat) (hsv : Hsv888) (filled : Bool) (c : Canvas ν) :
    DrawsEllipse d x y sizex sizey hsv filled c ↔
      EllipseFits d x.toNat y.toNat sizex.toNat sizey.toNat filled :=
  ⟨fits_of_draws hproducts, fun h => draws_of_fits hproducts h c⟩

theorem products_circle : EllipseProducts 3 3 :=
  ⟨ArcSizes.productsFit_of_ends 4 (by decide) (by decide) (by decide) (by decide) (by decide),
    ArcSizes.productsFit_of_ends 4 (by decide) (by decide) (by decide) (by decide) (by decide)⟩

theorem products_high : EllipseProducts 2 7 :=
  ⟨ArcSizes.productsFit_of_ends 8 (by decide) (by decide) (by decide) (by decide) (by decide),
    ArcSizes.productsFit_of_ends 8 (by decide) (by decide) (by decide) (by decide) (by decide)⟩

/-- The rows of a filled ellipse that is higher than wide. -/
theorem qp_ellipse_draws_iff_high : DrawsEllipse plainDriver 10 10 2 7 ⟨0, 0, 255⟩ true blankCanvas :=
  (qp_ellipse_draws_iff plainDriver 10 10 2 7 products_high ⟨0, 0, 255⟩ true blankCanvas).mpr
    ⟨by decide, ⟨by decide, by decide, by decide, by decide⟩, by decide⟩

/-- The rows of a filled circle are up to seven pixels long, and three have been filled. -/
theorem qp_ellipse_circle_fails : ¬DrawsEllipse plainDriver 10 10 3 3 ⟨0, 0, 255⟩ true blankCanvas := by
  intro hdraws
  have hproducts : EllipseProducts (3 : UInt16).toNat (3 : UInt16).toNat := products_circle
  exact absurd ((fits_of_draws hproducts hdraws).run rfl (by decide)) (by decide)

end DrawDriver
end Painter
end VialQmk
