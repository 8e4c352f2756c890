import VialQmk.Deferred.Tokens
import VialQmk.Lib.Linked
import VialQmk.Painter.Image

/-!
# Painter.Animation

The animations of `qp_draw_image.c`: a table of animation states beside a table of deferred executors, which the
tokens alone link. A tick of the animations goes through the executors in small steps, and what the pictures and the
displays do at a call comes from outside.

* `Inv.act`: each executor belongs to the state that it was set up for, where no tick draws a frame without a delay.
* `animation_slots`: in each run, a state is in use while one executor holds its token, a token stops its animation
  alone, and a failure leaves nothing behind.
-/

namespace VialQmk
namespace Painter

open Deferred Lib

/-! ## The code -/

structure AnimationState (D I : Type) where
  device : Option D
  x : BitVec 16
  y : BitVec 16
  image : Option I
  fgHsv888 : Hsv888
  bgHsv888 : Hsv888
  frameNumber : BitVec 16
  deferToken : BitVec 8

/-- What the displays and the images are at a call: `qp_drawimage_recolor_impl` with a device and an image, which
finds the delay of the frame where it succeeds, and `frame_count`. -/
structure Pictures (D I : Type) where
  drawimageRecolorImpl : D → BitVec 16 → BitVec 16 → I → BitVec 16 → Hsv888 → Hsv888 → Option (BitVec 16)
  frameCount : I → BitVec 16

/-- `animation_states` and `animation_executors`. The argument of a callback is the index of its state. -/
structure Animations (D I : Type) where
  states : List (AnimationState D I)
  executors : Machine Nat

namespace AnimationState

variable {D I : Type}

def zero (D I : Type) : AnimationState D I := ⟨none, 0, 0, none, ⟨0, 0, 0⟩, ⟨0, 0, 0⟩, 0, 0⟩

def InUse (state : AnimationState D I) : Prop := state.device ≠ none

/-- The delay behind the frame, or nothing where this could not be drawn. -/
def qpRenderAnimationState (pictures : Pictures D I) (state : AnimationState D I) :
    Option (BitVec 16) × AnimationState D I :=
  match state.device, state.image with
  | some device, some image =>
    match pictures.drawimageRecolorImpl device state.x state.y image state.frameNumber state.fgHsv888
        state.bgHsv888 with
    | none => (none, state)
    | some delay =>
      (some delay, { state with
        frameNumber :=
          if pictures.frameCount image ≤ state.frameNumber + 1 then 0 else state.frameNumber + 1 })
  | _, _ => (none, state)

def animationCallback (pictures : Pictures D I) (state : AnimationState D I) :
    BitVec 32 × AnimationState D I :=
  match state.qpRenderAnimationState pictures with
  | (none, state) => (0, { state with device := none })
  | (some delay, state) => (delay.setWidth 32, state)

end AnimationState

namespace Animations

variable {D I : Type} (a : Animations D I)

/-- The state that an animation starts with, in a slot that had a token before. -/
def firstState (device : Option D) (x y : BitVec 16) (image : Option I) (fgHsv888 bgHsv888 : Hsv888)
    (deferToken : BitVec 8) : AnimationState D I :=
  ⟨device, x, y, image, fgHsv888, bgHsv888, 0, deferToken⟩

def qpAnimateRecolor (pictures : Pictures D I) (device : Option D) (x y : BitVec 16) (image : Option I)
    (fgHsv888 bgHsv888 : Hsv888) : BitVec 8 × Animations D I :=
  match a.states.findIdx? fun state => state.device.isNone with
  | none => (invalidDeferredToken, a)
  | some i =>
    match a.states[i]? with
    | none => (invalidDeferredToken, a)
    | some old =>
      match (firstState device x y image fgHsv888 bgHsv888 old.deferToken).qpRenderAnimationState pictures with
      | (none, state) =>
        (invalidDeferredToken, { a with states := a.states.set i { state with device := none } })
      | (some delay, state) =>
        let (token, executors) := a.executors.deferExec (delay.setWidth 32) (some i)
        if token = invalidDeferredToken then
          (invalidDeferredToken, ⟨a.states.set i { state with deferToken := token, device := none }, executors⟩)
        else (token, ⟨a.states.set i { state with deferToken := token }, executors⟩)

def qpStopAnimation (animToken : BitVec 8) : Animations D I :=
  match a.states.findIdx? fun state => state.deferToken == animToken with
  | none => a
  | some i =>
    match a.states[i]? with
    | none => a
    | some state =>
      ⟨a.states.set i { state with device := none }, (a.executors.cancelDeferredExec animToken).2⟩

/-- `qp_internal_animation_tick`, up to the first look at the table. -/
def beginTick : Animations D I := { a with executors := a.executors.beginTask }

def cbArg (m : Machine Nat) : Option Nat :=
  match m.scans with
  | [] => none
  | scan :: _ => scan.running.bind fun _ => (m.table[scan.index]?).bind Executor.job

/-- The tick looks at the next executor, and invokes `animation_callback` where this is due. -/
def look (pictures : Pictures D I) : Animations D I :=
  match cbArg a.executors.visit with
  | none => { a with executors := a.executors.visit }
  | some i =>
    match a.states[i]? with
    | none => { a with executors := a.executors.visit }
    | some state =>
      let (delay, state) := state.animationCallback pictures
      ⟨a.states.set i state, a.executors.visit.finish delay⟩

end Animations

/-! ## The steps -/

/-- `elsewhere` is any use of the other tables of executors, which share `current_token`. -/
inductive Action (D I : Type) where
  | elapse
  | elsewhere (token : BitVec 8)
  | animate (pictures : Pictures D I) (device : Option D) (x y : BitVec 16) (image : Option I)
      (fgHsv888 bgHsv888 : Hsv888)
  | stop (token : BitVec 8)
  | beginTick
  | look (pictures : Pictures D I)

namespace Animations

variable {D I : Type} (a : Animations D I)

def Allowed : Action D I → Prop
  | .elapse => True
  | .look _ => a.executors.scans ≠ []
  | .elsewhere _ | .animate _ _ _ _ _ _ _ | .stop _ | .beginTick => a.executors.scans = []

def act : Action D I → Animations D I
  | .elapse => { a with executors := { a.executors with time := a.executors.time + 1 } }
  | .elsewhere token => { a with executors := { a.executors with currentToken := token } }
  | .animate pictures device x y image fgHsv888 bgHsv888 =>
    (a.qpAnimateRecolor pictures device x y image fgHsv888 bgHsv888).2
  | .stop token => a.qpStopAnimation token
  | .beginTick => a.beginTick
  | .look pictures => a.look pictures

/-- Two tables of one size, without an animation; the tokens and the timers are anywhere. -/
def fresh (m : Machine Nat) : Animations D I := ⟨List.replicate m.table.length (.zero D I), m⟩

/-- The animations that allowed steps reach, each of which meets a condition. -/
inductive Run (Meets : Animations D I → Action D I → Prop) : Animations D I → Prop where
  | start {m : Machine Nat} : m.Fresh → Run Meets (fresh m)
  | act {a : Animations D I} {action : Action D I} :
    Run Meets a → a.Allowed action → Meets a action → Run Meets (a.act action)

/-! ## Specification -/

def InUse (i : Nat) : Prop := ∃ state, a.states[i]? = some state ∧ state.InUse

def Owns (i : Nat) (e : Executor Nat) : Prop :=
  e.job = some i ∧ ∃ state, a.states[i]? = some state ∧ state.InUse ∧ state.deferToken = e.token

def InUseIffHeld : Prop :=
  ∀ (i : Nat) (state : AnimationState D I), a.states[i]? = some state →
    (state.InUse ↔ ∃! k, ∃ e, a.executors.Live k e ∧ e.token = state.deferToken)

/-- A state is in use where exactly one executor was set up for it under its token, and there are no others. -/
def InUseIffOwned : Prop :=
  (∀ i, a.InUse i ↔ ∃! k, ∃ e, a.executors.Live k e ∧ a.Owns i e) ∧
    ∀ k e, a.executors.Live k e → ∃ i, a.Owns i e

/-- An animation that is started has an executor in the table, with the token that is returned. -/
def StartsRun : Prop :=
  ∀ pictures device x y image fg bg token a',
    a.qpAnimateRecolor pictures device x y image fg bg = (token, a') → token ≠ invalidDeferredToken →
    ∃ k i e time delay, a'.executors.Live k e ∧ a'.Owns i e ∧ e.token = token ∧
      .queued e.serial token time delay ∈ a'.executors.log

/-- With the token that was returned for an animation that runs yet, this one alone is stopped, and with a token that
no executor has none. -/
def StopsAlone : Prop :=
  (∀ serial token time delay, .queued serial token time delay ∈ a.executors.log →
    ∀ k e, a.executors.Live k e → e.serial = serial →
      ∃ i state, e.job = some i ∧ a.states[i]? = some state ∧ state.InUse ∧
        a.qpStopAnimation token = ⟨a.states.set i { state with device := none },
          { a.executors with
            table := a.executors.table.set k (.free Nat)
            log := .cancelled serial :: a.executors.log }⟩) ∧
    ∀ token, (∀ k e, a.executors.Live k e → e.token ≠ token) →
      (a.qpStopAnimation token).executors = a.executors ∧ ∀ i, (a.qpStopAnimation token).InUse i ↔ a.InUse i

/-- Neither the state nor an executor is left behind by a start that fails. -/
def FailedStartFrees : Prop :=
  ∀ pictures device x y image fg bg a',
    a.qpAnimateRecolor pictures device x y image fg bg = (invalidDeferredToken, a') →
    a'.executors.table = a.executors.table ∧ (∀ i, a'.InUse i ↔ a.InUse i) ∧
      ∀ i, (a.states.findIdx? fun state => state.device.isNone) = some i →
        ¬ a'.InUse i ∧ ∀ k e, a'.executors.Live k e → e.job ≠ some i

/-- Nor by a tick that cannot draw the frame of an executor that is due. -/
def FailedRenderFrees : Prop :=
  ∀ pictures scan scans e i state, a.executors.scans = scan :: scans →
    a.executors.table[scan.index]? = some e → Machine.IsDue e scan.now → e.job = some i → a.states[i]? = some state →
    (state.qpRenderAnimationState pictures).1 = none →
    (a.look pictures).executors.table[scan.index]? = some (.free Nat) ∧ ¬ (a.look pictures).InUse i ∧
      ∀ k d, (a.look pictures).executors.Live k d → d.job ≠ some i

/-! ## The conditions -/

def FramesDelay : Action D I → Prop
  | .look pictures => ∀ scan scans e i state, a.executors.scans = scan :: scans →
    a.executors.table[scan.index]? = some e → Machine.IsDue e scan.now → e.job = some i → a.states[i]? = some state →
    (state.qpRenderAnimationState pictures).1 ≠ some 0
  | _ => True

/-- The next token is not what a state holds from an animation that has ended, but for the state that is started. -/
def TokensNew : Action D I → Prop
  | .animate _ _ _ _ _ _ _ => ∀ i j state, (a.states.findIdx? fun state => state.device.isNone) = some i → j ≠ i →
    a.states[j]? = some state → ¬ state.InUse →
    state.deferToken = (allocateToken a.executors.table a.executors.currentToken).1 →
    state.deferToken = invalidDeferredToken
  | _ => True

end Animations

/-! ## What a call can do -/

section Cases

variable {D I : Type}

theorem AnimationState.render_cases (pictures : Pictures D I) (state : AnimationState D I) :
    state.qpRenderAnimationState pictures = (none, state) ∨
      state.InUse ∧ ∃ delay frame,
        state.qpRenderAnimationState pictures = (some delay, { state with frameNumber := frame }) := by
  unfold qpRenderAnimationState
  split
  · rename_i device image hdevice _
    split
    · exact .inl rfl
    · refine .inr ⟨?_, _, _, rfl⟩
      rw [InUse, hdevice]
      exact Option.some_ne_none device
  · exact .inl rfl

namespace Animations

variable {a a' : Animations D I} {i j k : Nat} {e : Executor Nat} {state : AnimationState D I}

theorem findIdx?_free (h : (a.states.findIdx? fun state => state.device.isNone) = some i) :
    ∃ old, a.states[i]? = some old ∧ ¬ old.InUse ∧ ∀ j < i, a.InUse j := by
  obtain ⟨hlt, hnone, hbefore⟩ := List.findIdx?_eq_some_iff_getElem.mp h
  refine ⟨a.states[i], List.getElem?_eq_getElem hlt, fun hused => hused (Option.isNone_iff_eq_none.mp hnone), ?_⟩
  intro j hj
  refine ⟨a.states[j], List.getElem?_eq_getElem (Nat.lt_trans hj hlt), fun hnone => hbefore j hj ?_⟩
  exact Option.isNone_iff_eq_none.mpr hnone

theorem animate_cases (a : Animations D I) (pictures : Pictures D I) (device : Option D) (x y : BitVec 16)
    (image : Option I) (fg bg : Hsv888) :
    (a.states.findIdx? fun state => state.device.isNone) = none ∧
        a.qpAnimateRecolor pictures device x y image fg bg = (invalidDeferredToken, a) ∨
      ∃ i old state, (a.states.findIdx? fun state => state.device.isNone) = some i ∧ a.states[i]? = some old ∧
        ((¬ state.InUse ∧ (state.deferToken = old.deferToken ∨ state.deferToken = invalidDeferredToken) ∧ ∃ current,
            a.qpAnimateRecolor pictures device x y image fg bg =
              (invalidDeferredToken, ⟨a.states.set i state, { a.executors with currentToken := current }⟩)) ∨
          ∃ k token delay, state.InUse ∧ state.deferToken = token ∧
            (a.executors.table.findIdx? fun e => e.token == invalidDeferredToken) = some k ∧
            tokenCanBeUsed a.executors.table token = true ∧
            allocateToken a.executors.table a.executors.currentToken = (token, token) ∧
            a.qpAnimateRecolor pictures device x y image fg bg =
              (token, ⟨a.states.set i state, a.executors.queue k token delay i⟩)) := by
  unfold qpAnimateRecolor
  cases hfound : a.states.findIdx? fun state => state.device.isNone with
  | none => exact .inl ⟨rfl, rfl⟩
  | some i =>
    obtain ⟨old, hold, -, -⟩ := findIdx?_free hfound
    let first := firstState device x y image fg bg old.deferToken
    rcases first.render_cases pictures with hfail | ⟨hused, delay, frame, hok⟩
    · refine .inr ⟨i, old, { first with device := none }, rfl, hold, .inl ⟨fun hnone => hnone rfl, .inl rfl, ?_⟩⟩
      refine ⟨a.executors.currentToken, ?_⟩
      simp only [hold, first, hfail]
    · rcases a.executors.deferExec_cases (delay.setWidth 32) (some i) with
        ⟨current, hqueue⟩ | ⟨k, token, job, hk, husable, hjob, -, halloc, hqueue⟩
      · refine .inr ⟨i, old, { first with frameNumber := frame, deferToken := invalidDeferredToken, device := none },
          rfl, hold, .inl ⟨fun hnone => hnone rfl, .inr rfl, current, ?_⟩⟩
        simp only [hold, first, hok, hqueue, if_true]
      · cases hjob
        refine .inr ⟨i, old, { first with frameNumber := frame, deferToken := token }, rfl, hold, .inr ?_⟩
        refine ⟨k, token, delay.setWidth 32, hused, rfl, hk, husable, halloc, ?_⟩
        simp only [hold, first, hok, hqueue, if_neg (tokenCanBeUsed_iff.mp husable).1]

/-- A tick goes on, or invokes the callback of an executor that is due and goes on behind it. -/
theorem look_cases (pictures : Pictures D I) (hidle : ∀ scan ∈ a.executors.scans, scan.running = none)
    (hscans : a.executors.scans ≠ []) :
    ∃ scan scans, a.executors.scans = scan :: scans ∧ ¬ a.executors.UserCode ∧
      ((a.look pictures = { a with executors := a.executors.visit } ∧ a.executors.visit.table = a.executors.table ∧
          (∀ scan ∈ a.executors.visit.scans, scan.running = none) ∧
          ∀ e, a.executors.table[scan.index]? = some e → ¬ Machine.IsDue e scan.now) ∨
        ∃ e, a.executors.table[scan.index]? = some e ∧ Machine.IsDue e scan.now ∧
          ∀ i state, e.job = some i → a.states[i]? = some state →
            ∃ m', a.look pictures = ⟨a.states.set i (state.animationCallback pictures).2, m'⟩ ∧
              m' = a.executors.visit.finish (state.animationCallback pictures).1 ∧
              a.executors.visit.scans ≠ [] ∧ a.executors.visit.UserCode ∧
              m'.table = a.executors.table.set scan.index
                (Machine.afterCallback e (state.animationCallback pictures).1) ∧
              ∀ scan ∈ m'.scans, scan.running = none) := by
  have hcode : ¬ a.executors.UserCode := by
    obtain ⟨scan, scans, hcons⟩ := List.exists_cons_of_ne_nil hscans
    have hrunning := hidle scan (hcons ▸ List.mem_cons_self)
    rw [Machine.UserCode, hcons]
    exact not_not.mpr hrunning
  obtain ⟨scan, scans, hcons, hrunning, hvisit⟩ := Machine.visit_cases hcode
  refine ⟨scan, scans, hcons, hcode, ?_⟩
  have hrest : ∀ scan ∈ scans, scan.running = none := fun x hx => hidle x (hcons ▸ List.mem_cons_of_mem scan hx)
  rcases hvisit with ⟨hend, hvisit⟩ | ⟨e, he, ⟨hdue, hvisit⟩ | ⟨hnot, hvisit⟩⟩
  · refine .inl ⟨?_, by rw [hvisit], fun x hx => hrest x (by rwa [hvisit] at hx), fun e he => ?_⟩
    on_goal 2 => exact absurd (he.symm.trans hend) (Option.some_ne_none e)
    have hnone : cbArg a.executors.visit = none := by
      rw [hvisit, cbArg]
      cases scans with
      | nil => rfl
      | cons scan' scans =>
        have hnone := hrest scan' List.mem_cons_self
        simp only [hnone, Option.bind_none]
    rw [look, hnone]
  · refine .inr ⟨e, he, hdue, fun i state hjob hstate => ?_⟩
    have harg : cbArg a.executors.visit = some i := by
      rw [hvisit, cbArg]
      simp only [Option.bind_some, he, hjob]
    have hcode' : a.executors.visit.UserCode := by
      rw [hvisit, Machine.UserCode]
      exact Option.some_ne_none _
    have hscans' : a.executors.visit.scans ≠ [] := by
      rw [hvisit]
      exact List.cons_ne_nil _ _
    refine ⟨_, ?_, rfl, hscans', hcode', ?_, ?_⟩
    · rw [look, harg]
      simp only [hstate]
    · rw [hvisit, Machine.finish]
      simp only [he, ne_eq, not_true_eq_false, if_false]
    · rw [hvisit, Machine.finish]
      simp only [he, ne_eq, not_true_eq_false, if_false]
      intro x hx
      rcases List.mem_cons.mp hx with rfl | hx
      · rfl
      · exact hrest x hx
  · refine .inl ⟨?_, by rw [hvisit], ?_, fun d hd => Option.some.inj (he.symm.trans hd) ▸ hnot⟩
    · have hnone : cbArg a.executors.visit = none := by
        rw [hvisit, cbArg]
        simp only [hrunning, Option.bind_none]
      rw [look, hnone]
    · rw [hvisit]
      intro x hx
      rcases List.mem_cons.mp hx with rfl | hx
      · exact hrunning
      · exact hrest x hx

/-! ## The tables -/

def held (a : Animations D I) (i : Nat) : Option (BitVec 8) := a.states[i]?.map AnimationState.deferToken

def running (m : Machine Nat) (k : Nat) : Option (BitVec 8 × Nat) :=
  (m.table[k]?).bind fun e => if e.IsFree then none else e.job.map fun i => (e.token, i)

def tables (a : Animations D I) : Tables Nat Nat (BitVec 8) := ⟨a.held, a.InUse, running a.executors⟩

variable {m : Machine Nat} {old : AnimationState D I}

theorem running_eq_some {token : BitVec 8} :
    running m k = some (token, i) ↔ ∃ e, m.Live k e ∧ e.token = token ∧ e.job = some i := by
  rw [running, Option.bind_eq_some_iff]
  constructor
  · rintro ⟨e, he, hrun⟩
    split at hrun
    · cases hrun
    · rename_i hused
      rw [Option.map_eq_some_iff] at hrun
      obtain ⟨j, hjob, heq⟩ := hrun
      cases heq
      exact ⟨e, ⟨he, hused⟩, rfl, hjob⟩
  · rintro ⟨e, ⟨he, hused⟩, rfl, hjob⟩
    exact ⟨e, he, by rw [if_neg hused, hjob, Option.map_some]⟩

theorem running_free (he : m.table[k]? = some e) (hfree : e.IsFree) : running m k = none := by
  rw [running, he, Option.bind_some, if_pos hfree]

theorem running_set_ne {m' : Machine Nat} (htable : m'.table = m.table.set k e) {l : Nat} (hl : l ≠ k) :
    running m' l = running m l := by
  rw [running, running, htable, List.getElem?_set_ne (Ne.symm hl)]

theorem inUse_iff (h : a.states[i]? = some state) : a.InUse i ↔ state.InUse :=
  ⟨fun ⟨_, hx, hused⟩ => Option.some.inj (hx.symm.trans h) ▸ hused, fun hused => ⟨state, h, hused⟩⟩

theorem held_eq (h : a.states[i]? = some state) : a.held i = some state.deferToken := by
  rw [held, h, Option.map_some]

theorem lt_of_state (h : a.states[i]? = some state) : i < a.states.length := (List.getElem?_eq_some_iff.mp h).1

section Set

variable (hstates : a'.states = a.states.set i state)
include hstates

theorem held_set_ne (hj : j ≠ i) : a'.held j = a.held j := by
  rw [held, held, hstates, List.getElem?_set_ne (Ne.symm hj)]

theorem inUse_set_ne (hj : j ≠ i) : a'.InUse j ↔ a.InUse j := by
  rw [InUse, InUse, hstates, List.getElem?_set_ne (Ne.symm hj)]

theorem held_set_self (hlt : i < a.states.length) : a'.held i = some state.deferToken := by
  rw [held, hstates, List.getElem?_set_self hlt, Option.map_some]

theorem inUse_set_self (hlt : i < a.states.length) : a'.InUse i ↔ state.InUse := by
  rw [InUse, hstates, List.getElem?_set_self hlt]
  exact ⟨fun ⟨x, hx, hused⟩ => Option.some.inj hx ▸ hused, fun hused => ⟨state, rfl, hused⟩⟩

theorem held_set_of_eq {old : AnimationState D I} (hold : a.states[i]? = some old)
    (htoken : state.deferToken = old.deferToken) (j : Nat) : a'.held j = a.held j := by
  by_cases hj : j = i
  · subst hj
    rw [held_set_self hstates (lt_of_state hold), held_eq hold, htoken]
  · exact held_set_ne hstates hj

theorem inUse_set_of_iff {old : AnimationState D I} (hold : a.states[i]? = some old)
    (hused : state.InUse ↔ old.InUse) (j : Nat) : a'.InUse j ↔ a.InUse j := by
  by_cases hj : j = i
  · subst hj
    rw [inUse_set_self hstates (lt_of_state hold), inUse_iff hold, hused]
  · exact inUse_set_ne hstates hj

end Set

theorem owns_iff : a.Owns i e ↔ e.job = some i ∧ a.InUse i ∧ a.held i = some e.token := by
  constructor
  · rintro ⟨hjob, state, hstate, hused, htoken⟩
    exact ⟨hjob, ⟨state, hstate, hused⟩, htoken ▸ held_eq hstate⟩
  · rintro ⟨hjob, ⟨state, hstate, hused⟩, htoken⟩
    rw [held_eq hstate] at htoken
    exact ⟨hjob, state, hstate, hused, Option.some.inj htoken⟩

/-! ## The invariant -/

/-- The tables are linked, and no callback is under way. -/
structure Inv (a : Animations D I) : Prop where
  executors : a.executors.Inv
  jobs : ∀ k e, a.executors.Live k e → ∃ i, e.job = some i
  idle : ∀ scan ∈ a.executors.scans, scan.running = none
  linked : a.tables.Linked

theorem fresh_tables (h : m.Fresh) (i k : Nat) : ¬ (fresh m : Animations D I).InUse i ∧ running m k = none := by
  constructor
  · rintro ⟨state, hstate, hused⟩
    have hzero := List.eq_of_mem_replicate (List.mem_of_getElem? hstate)
    rw [hzero] at hused
    exact hused rfl
  · cases he : m.table[k]? with
    | none => rw [running, he, Option.bind_none]
    | some e => exact running_free he (h.free e (List.mem_of_getElem? he))

theorem inv_fresh (h : m.Fresh) : (fresh m : Animations D I).Inv where
  executors := h.inv
  jobs k e hlive := absurd (h.free e (List.mem_of_getElem? hlive.1)) hlive.2
  idle scan hscan := by
    change scan ∈ m.scans at hscan
    rw [h.scans] at hscan
    exact absurd hscan List.not_mem_nil
  linked := Tables.linked_of_empty (fun i => (fresh_tables h i 0).1) fun k => (fresh_tables (D := D) (I := I) h 0 k).2

theorem run_fresh {token : BitVec 8} (husable : tokenCanBeUsed a.executors.table token = true) (l j : Nat) :
    a.tables.run l ≠ some (token, j) := by
  intro hrun
  obtain ⟨e, hlive, htoken, -⟩ := running_eq_some.mp hrun
  exact (tokenCanBeUsed_iff.mp husable).2 e (List.mem_of_getElem? hlive.1) htoken

namespace Inv

theorem owner (h : a.Inv) (hlive : a.executors.Live k e) : ∃ i, a.Owns i e := by
  obtain ⟨i, hjob⟩ := h.jobs k e hlive
  obtain ⟨hused, hheld⟩ := h.linked.owner k e.token i (running_eq_some.mpr ⟨e, hlive, rfl, hjob⟩)
  exact ⟨i, owns_iff.mpr ⟨hjob, hused, hheld⟩⟩

end Inv

theorem tables_eq (hheld : ∀ i, a'.held i = a.held i) (hused : ∀ i, a'.InUse i ↔ a.InUse i)
    (hrun : ∀ k, running a'.executors k = running a.executors k) : a'.tables = a.tables := by
  rw [tables, tables, funext hheld, funext hrun, funext fun i => propext (hused i)]

/-- What a step does to the tables. The token of a state that is started is no other state's where a condition holds. -/
inductive Moves (New : Prop) (a a' : Animations D I) : Prop where
  | same (tables : a'.tables = a.tables)
  | starts {i k : Nat} {token : BitVec 8} (starts : a.tables.Starts a'.tables i k token)
      (new : New → ∀ j ≠ i, ¬ a.InUse j → a.held j ≠ some token)
  | stops {i k : Nat} (stops : a.tables.Stops a'.tables i k)
  | leaves {i : Nat} (leaves : a.tables.Leaves a'.tables i)

namespace Moves

variable {New : Prop}

theorem linked (h : Moves New a a') (hlinked : a.tables.Linked) : a'.tables.Linked := by
  cases h with
  | same h => rwa [h]
  | starts h _ => exact h.linked hlinked
  | stops h => exact h.linked hlinked
  | leaves h => exact h.linked hlinked

theorem forgets (h : Moves New a a') (hnew : New) (hlinked : a.tables.Linked) (hforgets : a.tables.Forgets) :
    a'.tables.Forgets := by
  cases h with
  | same h => rwa [h]
  | starts h new => exact h.forgets hforgets (new hnew)
  | stops h => exact h.forgets hlinked hforgets
  | leaves h => exact h.forgets hforgets

end Moves

/-! ## The steps, one after another -/

theorem stops_of_set (state' : AnimationState D I) (hlive : a.executors.Live k e) (hjob : e.job = some i)
    (hstate : a.states[i]? = some state) (hout : ¬ state'.InUse) (htoken : state'.deferToken = state.deferToken)
    (hstates : a'.states = a.states.set i state')
    (htable : a'.executors.table = a.executors.table.set k (.free Nat)) : a.tables.Stops a'.tables i k where
  runs := ⟨e.token, running_eq_some.mpr ⟨e, hlive, rfl, hjob⟩⟩
  held j := held_set_of_eq hstates hstate htoken j
  used_ne j hj := inUse_set_ne hstates hj
  run_ne l hl := running_set_ne htable hl
  used_self := (inUse_set_self hstates (lt_of_state hstate)).not.mpr hout
  run_self := by
    have hlt := (List.getElem?_eq_some_iff.mp hlive.1).1
    refine running_free (e := .free Nat) ?_ rfl
    rw [htable, List.getElem?_set_self hlt]

theorem tables_of_set {old' : Executor Nat} (hold : a.states[i]? = some old)
    (hold' : a.executors.table[k]? = some old') (htoken : state.deferToken = old.deferToken)
    (hused : state.InUse ↔ old.InUse) (htoken' : e.token = old'.token) (hfree : e.IsFree ↔ old'.IsFree)
    (hjob : e.job = old'.job) (hstates : a'.states = a.states.set i state)
    (htable : a'.executors.table = a.executors.table.set k e) : a'.tables = a.tables := by
  refine tables_eq (held_set_of_eq hstates hold htoken) (inUse_set_of_iff hstates hold hused) fun l => ?_
  by_cases hl : l = k
  · subst hl
    rw [running, running, htable, List.getElem?_set_self (List.getElem?_eq_some_iff.mp hold').1, hold']
    simp only [Option.bind_some, hfree, htoken', hjob]
  · exact running_set_ne htable hl

/-- A state that is given back before its animation has started has its old token or none. -/
theorem leaves_of_set (hold : a.states[i]? = some old) (hfree : ¬ old.InUse) (hout : ¬ state.InUse)
    (htoken : state.deferToken = old.deferToken ∨ state.deferToken = invalidDeferredToken)
    (hstates : a'.states = a.states.set i state) (htable : a'.executors.table = a.executors.table) :
    a.tables.Leaves a'.tables i := by
  have hlt := lt_of_state hold
  refine ⟨(inUse_iff hold).not.mpr hfree, fun j hj => held_set_ne hstates hj, ?_, fun j => ?_, fun l => ?_⟩
  · rcases htoken with htoken | htoken
    · refine .inl ?_
      change a'.held i = a.held i
      rw [held_set_self hstates hlt, held_eq hold, htoken]
    · refine .inr fun l t j hrun => ?_
      change a'.held i ≠ _
      rw [held_set_self hstates hlt, htoken]
      obtain ⟨e, hlive, rfl, -⟩ := running_eq_some.mp hrun
      exact fun heq => hlive.2 (Option.some.inj heq).symm
  · exact inUse_set_of_iff hstates hold (iff_of_false hout hfree) j
  · change running a'.executors l = running a.executors l
    rw [running, running, htable]

theorem starts_of_queue {free : Executor Nat} {token : BitVec 8} (delay : BitVec 32) (hold : a.states[i]? = some old)
    (hfree : ¬ old.InUse) (hlower : ∀ j < i, a.InUse j) (hused : state.InUse) (htoken : state.deferToken = token)
    (hentry : a.executors.table[k]? = some free) (hinvalid : free.IsFree)
    (husable : tokenCanBeUsed a.executors.table token = true) :
    a.tables.Starts (tables ⟨a.states.set i state, a.executors.queue k token delay i⟩) i k token := by
  have hlt := lt_of_state hold
  have hklt := (List.getElem?_eq_some_iff.mp hentry).1
  refine ⟨hlower, (inUse_iff hold).not.mpr hfree, running_free hentry hinvalid, run_fresh husable,
    fun j hj => held_set_ne rfl hj, fun j hj => inUse_set_ne rfl hj, fun l hl => running_set_ne rfl hl, ?_,
    (inUse_set_self rfl hlt).mpr hused, ?_⟩
  · rw [← htoken]
    exact held_set_self rfl hlt
  · exact running_eq_some.mpr ⟨_, ⟨List.getElem?_set_self hklt, (tokenCanBeUsed_iff.mp husable).1⟩, rfl, rfl⟩

namespace Inv

theorem animate (h : a.Inv) (pictures : Pictures D I) (device : Option D) (x y : BitVec 16) (image : Option I)
    (fg bg : Hsv888) :
    (a.qpAnimateRecolor pictures device x y image fg bg).2.Inv ∧
      Moves (a.TokensNew (.animate pictures device x y image fg bg)) a
        (a.qpAnimateRecolor pictures device x y image fg bg).2 := by
  rcases a.animate_cases pictures device x y image fg bg with
    ⟨-, heq⟩ | ⟨i, old, state, hfound, hold, ⟨hout, htoken, current, heq⟩ | ⟨k, token, delay, hused, htoken, hk, husable,
      halloc, heq⟩⟩
  · rw [heq]
    exact ⟨h, .same rfl⟩
  · rw [heq]
    obtain ⟨old', hold', hfree, -⟩ := findIdx?_free hfound
    obtain rfl := Option.some.inj (hold.symm.trans hold')
    have hmoves : Moves (a.TokensNew (.animate pictures device x y image fg bg)) a
        ⟨a.states.set i state, { a.executors with currentToken := current }⟩ :=
      .leaves (leaves_of_set hold hfree hout htoken rfl rfl)
    exact ⟨⟨h.executors.of_keeps (Machine.keeps_of_table rfl) rfl rfl, h.jobs, h.idle, hmoves.linked h.linked⟩, hmoves⟩
  · rw [heq]
    obtain ⟨old', hold', hfree, hlower⟩ := findIdx?_free hfound
    obtain rfl := Option.some.inj (hold.symm.trans hold')
    obtain ⟨free, hentry, hinvalid⟩ := Machine.findIdx?_token hk
    have hstarts := starts_of_queue delay hold hfree hlower hused htoken hentry hinvalid husable
    have hmoves : Moves (a.TokensNew (.animate pictures device x y image fg bg)) a
        ⟨a.states.set i state, a.executors.queue k token delay i⟩ := by
      refine .starts hstarts fun hnew j hj hout hheld => ?_
      rw [Animations.held, Option.map_eq_some_iff] at hheld
      obtain ⟨stale, hstale, heq⟩ := hheld
      have hzero := hnew i j stale hfound hj hstale ((inUse_iff hstale).not.mp hout) (by rw [halloc, heq])
      exact (tokenCanBeUsed_iff.mp husable).1 (heq.symm.trans hzero)
    refine ⟨⟨h.executors.queue husable, fun l e hlive => ?_, h.idle, hmoves.linked h.linked⟩, hmoves⟩
    rcases Machine.live_of_set rfl hlive with ⟨-, rfl⟩ | ⟨-, hlive⟩
    · exact ⟨i, rfl⟩
    · exact h.jobs l e hlive

/-- A state with the token of an executor is the first one with it, and is stopped; where no executor has the token,
nothing comes out of use. -/
theorem stop_cases (h : a.Inv) (token : BitVec 8) :
    (∃ k e i state, a.executors.Live k e ∧ e.token = token ∧ e.job = some i ∧ a.states[i]? = some state ∧ state.InUse ∧
        a.qpStopAnimation token = ⟨a.states.set i { state with device := none },
          { a.executors with
            table := a.executors.table.set k (.free Nat)
            log := .cancelled e.serial :: a.executors.log }⟩) ∨
      (∀ k e, a.executors.Live k e → e.token ≠ token) ∧
        (a.qpStopAnimation token).executors = a.executors ∧ (a.qpStopAnimation token).tables = a.tables := by
  by_cases hlive : ∃ k e, a.executors.Live k e ∧ e.token = token
  · obtain ⟨k, e, hlive, rfl⟩ := hlive
    obtain ⟨i, hjob, state, hstate, hused, htoken⟩ := h.owner hlive
    refine .inl ⟨k, e, i, state, hlive, rfl, hjob, hstate, hused, ?_⟩
    have hlt := lt_of_state hstate
    have hfound : (a.states.findIdx? fun state => state.deferToken == e.token) = some i := by
      rw [List.findIdx?_eq_some_iff_getElem]
      refine ⟨hlt, ?_, fun j hj hsame => ?_⟩
      · rw [List.getElem?_eq_getElem hlt] at hstate
        rw [Option.some.inj hstate, htoken, beq_self_eq_true]
      · have hjlt := List.getElem?_eq_getElem (Nat.lt_trans hj hlt)
        refine h.linked.first j i hj ⟨state, hstate, hused⟩ ?_
        change a.held j = a.held i
        rw [held_eq hjlt, held_eq hstate, htoken, eq_of_beq hsame]
    rw [qpStopAnimation, hfound]
    simp only [hstate, h.executors.cancelDeferredExec_live hlive]
  · have hnone : ∀ k e, a.executors.Live k e → e.token ≠ token := fun k e hk heq => hlive ⟨k, e, hk, heq⟩
    refine .inr ⟨hnone, ?_⟩
    have hcancel : (a.executors.cancelDeferredExec token).2 = a.executors := by
      rcases a.executors.cancelDeferredExec_cases token with heq | ⟨k, e, hk, htoken, -⟩
      · rw [heq]
      · exact absurd htoken (hnone k e hk)
    rw [qpStopAnimation]
    cases hfound : a.states.findIdx? fun state => state.deferToken == token with
    | none => exact ⟨rfl, rfl⟩
    | some i =>
      obtain ⟨hlt, htoken, -⟩ := List.findIdx?_eq_some_iff_getElem.mp hfound
      have hstate := List.getElem?_eq_getElem hlt
      have hout : ¬ a.InUse i := by
        intro hused
        obtain ⟨k, t, hrun, hheld⟩ := h.linked.held_of_used hused
        obtain ⟨e, hk, rfl, -⟩ := running_eq_some.mp hrun
        change a.held i = some e.token at hheld
        rw [held_eq hstate, Option.some.injEq] at hheld
        exact hnone k e hk (hheld.symm.trans (eq_of_beq htoken))
      simp only [hstate, hcancel]
      have hfree : ¬ (a.states[i]).InUse := (inUse_iff hstate).not.mp hout
      exact ⟨trivial, tables_eq (held_set_of_eq rfl hstate rfl)
        (inUse_set_of_iff rfl hstate (iff_of_false (fun hused => hused rfl) hfree)) fun k => rfl⟩

theorem stop (h : a.Inv) (token : BitVec 8) {New : Prop} :
    (a.qpStopAnimation token).Inv ∧ Moves New a (a.qpStopAnimation token) := by
  rcases h.stop_cases token with ⟨k, e, i, state, hlive, rfl, hjob, hstate, hused, heq⟩ | ⟨-, hexecutors, htables⟩
  · have hinv := h.executors.cancelDeferredExec e.token
    rw [h.executors.cancelDeferredExec_live hlive] at hinv
    have hmoves : Moves New a (a.qpStopAnimation e.token) := by
      rw [heq]
      exact .stops (stops_of_set { state with device := none } hlive hjob hstate (fun hused => hused rfl) rfl rfl rfl)
    have hlinked := hmoves.linked h.linked
    rw [heq] at hlinked ⊢
    refine ⟨⟨hinv, fun l d hd => ?_, h.idle, hlinked⟩, heq ▸ hmoves⟩
    rcases Machine.live_of_set rfl hd with ⟨-, rfl⟩ | ⟨-, hd⟩
    · exact absurd rfl hd.2
    · exact h.jobs l d hd
  · have hmoves : Moves New a (a.qpStopAnimation token) := .same htables
    refine ⟨⟨hexecutors ▸ h.executors, hexecutors ▸ h.jobs, hexecutors ▸ h.idle, hmoves.linked h.linked⟩, hmoves⟩

theorem beginTick (h : a.Inv) {New : Prop} : a.beginTick.Inv ∧ Moves New a a.beginTick := by
  have htable : a.executors.beginTask.table = a.executors.table := by
    unfold Machine.beginTask
    split <;> rfl
  have hmoves : Moves New a a.beginTick :=
    .same (tables_eq (fun _ => rfl) (fun _ => Iff.rfl) fun k => by rw [running, running, ← htable]; rfl)
  refine ⟨⟨h.executors.beginTask, fun k e hlive => h.jobs k e ⟨htable ▸ hlive.1, hlive.2⟩, ?_,
    hmoves.linked h.linked⟩, hmoves⟩
  unfold Animations.beginTick Machine.beginTask
  split
  · intro scan hscan
    rcases List.mem_cons.mp hscan with rfl | hscan
    · rfl
    · exact h.idle scan hscan
  · exact h.idle

theorem callback_cases (pictures : Pictures D I) (state : AnimationState D I) :
    ((state.qpRenderAnimationState pictures).1 = none ∧
        state.animationCallback pictures = (0, { state with device := none })) ∨
      ∃ delay frame, (state.qpRenderAnimationState pictures).1 = some delay ∧
        state.animationCallback pictures = (delay.setWidth 32, { state with frameNumber := frame }) := by
  rcases state.render_cases pictures with heq | ⟨-, delay, frame, heq⟩
  · exact .inl ⟨by rw [heq], by rw [AnimationState.animationCallback, heq]⟩
  · exact .inr ⟨delay, frame, by rw [heq], by rw [AnimationState.animationCallback, heq]⟩

theorem look (h : a.Inv) (pictures : Pictures D I) (hscans : a.executors.scans ≠ [])
    (hdelay : a.FramesDelay (.look pictures)) {New : Prop} :
    (a.look pictures).Inv ∧ Moves New a (a.look pictures) := by
  obtain ⟨scan, scans, hcons, hcode, ⟨heq, htable, hidle, -⟩ | ⟨e, he, hdue, hcall⟩⟩ := look_cases pictures h.idle hscans
  · have hmoves : Moves New a (a.look pictures) := by
      rw [heq]
      exact .same (tables_eq (fun _ => rfl) (fun _ => Iff.rfl) fun k => by rw [running, running, htable])
    have hlinked := hmoves.linked h.linked
    refine ⟨?_, hmoves⟩
    rw [heq] at hlinked ⊢
    exact ⟨h.executors.visit hcode, fun k e hlive => h.jobs k e ⟨htable ▸ hlive.1, hlive.2⟩, hidle, hlinked⟩
  · have hlive : a.executors.Live scan.index e := ⟨he, hdue.1⟩
    obtain ⟨i, hjob, state, hstate, hused, htoken⟩ := h.owner hlive
    obtain ⟨m', heq, hm', hscans', hcode', htable, hidle⟩ := hcall i state hjob hstate
    have hinv : m'.Inv := hm' ▸ (h.executors.visit hcode).finish hscans' hcode' _
    have hlt := (List.getElem?_eq_some_iff.mp he).1
    rcases callback_cases pictures state with ⟨-, hcallback⟩ | ⟨delay, frame, hdrawn, hcallback⟩
    · rw [hcallback] at heq htable
      have hfree : m'.table = a.executors.table.set scan.index (.free Nat) := htable
      have hmoves : Moves New a (a.look pictures) := by
        rw [heq]
        exact .stops (stops_of_set { state with device := none } hlive hjob hstate (fun hused => hused rfl) rfl rfl hfree)
      have hlinked := hmoves.linked h.linked
      refine ⟨?_, hmoves⟩
      rw [heq] at hlinked ⊢
      refine ⟨hinv, fun l d hd => ?_, hidle, hlinked⟩
      rcases Machine.live_of_set hfree hd with ⟨-, rfl⟩ | ⟨-, hd⟩
      · exact absurd rfl hd.2
      · exact h.jobs l d hd
    · have hpos : 0 < delay.setWidth 32 := by
        have hne : delay ≠ 0 := fun hzero =>
          hdelay scan scans e i state hcons he hdue hjob hstate (hdrawn.trans (congrArg some hzero))
        bv_omega
      rw [hcallback] at heq htable
      rw [Machine.afterCallback, if_pos hpos] at htable
      have hmoves : Moves New a (a.look pictures) := by
        rw [heq]
        refine .same (tables_of_set hstate he ?_ ?_ ?_ ?_ ?_ rfl htable) <;> rfl
      have hlinked := hmoves.linked h.linked
      refine ⟨?_, hmoves⟩
      rw [heq] at hlinked ⊢
      refine ⟨hinv, fun l d hd => ?_, hidle, hlinked⟩
      rcases Machine.live_of_set htable hd with ⟨-, rfl⟩ | ⟨-, hd⟩
      · exact ⟨i, hjob⟩
      · exact h.jobs l d hd

theorem act (h : a.Inv) (action : Action D I) (hallowed : a.Allowed action) (hdelay : a.FramesDelay action) :
    (a.act action).Inv ∧ Moves (a.TokensNew action) a (a.act action) := by
  cases action with
  | elapse =>
    have hinv : Machine.Inv { a.executors with time := a.executors.time + 1 } :=
      h.executors.of_keeps (Machine.keeps_of_table rfl) rfl rfl
    exact ⟨⟨hinv, h.jobs, h.idle, h.linked⟩, .same rfl⟩
  | elsewhere token =>
    have hinv : Machine.Inv { a.executors with currentToken := token } :=
      h.executors.of_keeps (Machine.keeps_of_table rfl) rfl rfl
    exact ⟨⟨hinv, h.jobs, h.idle, h.linked⟩, .same rfl⟩
  | animate pictures device x y image fg bg => exact h.animate pictures device x y image fg bg
  | stop token => exact h.stop token
  | beginTick => exact h.beginTick
  | look pictures => exact h.look pictures hallowed hdelay

end Inv

/-! ## What the invariant says of the slots -/

theorem startsRun (a : Animations D I) : a.StartsRun := by
  intro pictures device x y image fg bg token a' heq htoken
  rcases a.animate_cases pictures device x y image fg bg with
    ⟨-, hfail⟩ | ⟨i, old, state, hfound, hold, ⟨-, -, current, hfail⟩ | ⟨k, token', delay, hused, htoken', hk, husable, -,
      hok⟩⟩
  · rw [hfail] at heq
    cases heq
    exact absurd rfl htoken
  · rw [hfail] at heq
    cases heq
    exact absurd rfl htoken
  · rw [hok] at heq
    cases heq
    obtain ⟨_, hfree, -⟩ := Machine.findIdx?_token hk
    have hklt := (List.getElem?_eq_some_iff.mp hfree).1
    refine ⟨k, i, _, a.executors.time, delay, ⟨List.getElem?_set_self hklt, htoken⟩, ⟨rfl, state, ?_, hused, htoken'⟩,
      rfl, List.mem_cons_self⟩
    exact List.getElem?_set_self (lt_of_state hold)

namespace Inv

theorem inUse_iff_owned (h : a.Inv) : a.InUseIffOwned := by
  refine ⟨fun i => ?_, fun k e hlive => h.owner hlive⟩
  have hiff : a.InUse i ↔ ∃! k, ∃ t, running a.executors k = some (t, i) ∧ a.held i = some t := h.linked.used_iff
  rw [hiff]
  refine existsUnique_congr fun k => ⟨fun ⟨t, hrun, hheld⟩ => ?_, fun ⟨e, hlive, howns⟩ => ?_⟩
  · obtain ⟨e, hlive, rfl, hjob⟩ := running_eq_some.mp hrun
    obtain ⟨hused, -⟩ := h.linked.owner k e.token i hrun
    exact ⟨e, hlive, owns_iff.mpr ⟨hjob, hused, hheld⟩⟩
  · obtain ⟨hjob, -, hheld⟩ := owns_iff.mp howns
    exact ⟨e.token, running_eq_some.mpr ⟨e, hlive, rfl, hjob⟩, hheld⟩

theorem inUse_iff_held (h : a.Inv) (hforgets : a.tables.Forgets) : a.InUseIffHeld := by
  intro i state hstate
  have hiff : a.InUse i ↔ ∃! k, ∃ t j, running a.executors k = some (t, j) ∧ a.held i = some t :=
    h.linked.used_iff_token hforgets
  rw [← inUse_iff hstate, hiff]
  refine existsUnique_congr fun k => ⟨fun ⟨t, j, hrun, hheld⟩ => ?_, fun ⟨e, hlive, htoken⟩ => ?_⟩
  · obtain ⟨e, hlive, rfl, -⟩ := running_eq_some.mp hrun
    rw [held_eq hstate] at hheld
    exact ⟨e, hlive, (Option.some.inj hheld).symm⟩
  · obtain ⟨j, hjob⟩ := h.jobs k e hlive
    exact ⟨e.token, j, running_eq_some.mpr ⟨e, hlive, rfl, hjob⟩, by rw [held_eq hstate, htoken]⟩

theorem stopsAlone (h : a.Inv) : a.StopsAlone := by
  constructor
  · rintro serial token time delay hqueued k e hlive rfl
    obtain rfl := h.executors.queued_token k e token time delay hlive hqueued
    rcases h.stop_cases e.token with ⟨l, d, i, state, hd, htoken, hjob, hstate, hused, heq⟩ | ⟨hnone, -⟩
    · obtain rfl := h.executors.distinct l k d e hd hlive htoken
      obtain rfl := Option.some.inj (hd.1.symm.trans hlive.1)
      exact ⟨i, state, hjob, hstate, hused, heq⟩
    · exact absurd rfl (hnone k e hlive)
  · intro token hnone
    rcases h.stop_cases token with ⟨l, d, i, state, hd, htoken, -⟩ | ⟨-, hexecutors, htables⟩
    · exact absurd htoken (hnone l d hd)
    · exact ⟨hexecutors, fun i => iff_of_eq (congrFun (congrArg Tables.used htables) i)⟩

theorem job_ne (h : a.Inv) (hout : ¬ a.InUse i) (hlive : a.executors.Live k e) : e.job ≠ some i := by
  intro hjob
  exact hout (h.linked.owner k e.token i (running_eq_some.mpr ⟨e, hlive, rfl, hjob⟩)).1

theorem failedStartFrees (h : a.Inv) : a.FailedStartFrees := by
  intro pictures device x y image fg bg a' heq
  obtain ⟨hinv, -⟩ := h.animate pictures device x y image fg bg
  rw [heq] at hinv
  have hsame : a'.executors.table = a.executors.table ∧ ∀ i, a'.InUse i ↔ a.InUse i := by
    rcases a.animate_cases pictures device x y image fg bg with
      ⟨-, hfail⟩ | ⟨i, old, state, hfound, hold, ⟨hout, -, current, hfail⟩ | ⟨k, token, delay, -, -, -, husable, -, hok⟩⟩
    · rw [hfail] at heq
      cases heq
      exact ⟨rfl, fun _ => Iff.rfl⟩
    · rw [hfail] at heq
      cases heq
      obtain ⟨old', hold', hfree, -⟩ := findIdx?_free hfound
      obtain rfl := Option.some.inj (hold.symm.trans hold')
      refine ⟨rfl, fun j => ?_⟩
      by_cases hj : j = i
      · subst hj
        rw [inUse_set_self rfl (lt_of_state hold), inUse_iff hold]
        exact iff_of_false hout hfree
      · exact inUse_set_ne rfl hj
    · rw [hok] at heq
      cases heq
      exact absurd rfl (tokenCanBeUsed_iff.mp husable).1
  refine ⟨hsame.1, hsame.2, fun i hfound => ?_⟩
  obtain ⟨old, hold, hfree, -⟩ := findIdx?_free hfound
  have hout : ¬ a'.InUse i := (hsame.2 i).not.mpr ((inUse_iff hold).not.mpr hfree)
  exact ⟨hout, fun k e hlive => hinv.job_ne hout hlive⟩

theorem failedRenderFrees (h : a.Inv) : a.FailedRenderFrees := by
  intro pictures scan scans e i state hcons he hdue hjob hstate hfail
  have hscans : a.executors.scans ≠ [] := hcons ▸ List.cons_ne_nil scan scans
  have hdelay : a.FramesDelay (.look pictures) := by
    intro scan' scans' e' i' state' hcons' he' _ hjob' hstate'
    obtain ⟨rfl, -⟩ := List.cons_eq_cons.mp (hcons'.symm.trans hcons)
    obtain rfl := Option.some.inj (he'.symm.trans he)
    obtain rfl := Option.some.inj (hjob'.symm.trans hjob)
    obtain rfl := Option.some.inj (hstate'.symm.trans hstate)
    rw [hfail]
    exact (Option.some_ne_none _).symm
  have hinv : (a.look pictures).Inv := (h.act (.look pictures) hscans hdelay).1
  obtain ⟨scan', scans', hcons', -, ⟨-, -, -, hnot⟩ | ⟨e', he', -, hcall⟩⟩ := look_cases pictures h.idle hscans
  · obtain ⟨rfl, -⟩ := List.cons_eq_cons.mp (hcons.symm.trans hcons')
    exact absurd hdue (hnot e he)
  · obtain ⟨rfl, -⟩ := List.cons_eq_cons.mp (hcons.symm.trans hcons')
    obtain rfl := Option.some.inj (he.symm.trans he')
    obtain ⟨m', heq, -, -, -, htable, -⟩ := hcall i state hjob hstate
    rcases callback_cases pictures state with ⟨-, hcallback⟩ | ⟨delay, frame, hdrawn, -⟩
    · rw [hcallback] at heq htable
      have hout : ¬ (a.look pictures).InUse i := by
        rw [heq, inUse_set_self rfl (lt_of_state hstate)]
        exact fun hused => hused rfl
      refine ⟨?_, hout, fun k d hlive => hinv.job_ne hout hlive⟩
      rw [heq]
      change m'.table[scan.index]? = _
      rw [htable, List.getElem?_set_self (List.getElem?_eq_some_iff.mp he).1]
      rfl
    · rw [hfail] at hdrawn
      cases hdrawn

end Inv

end Animations

end Cases

/-! ## The runs -/

namespace Animations

section Run

variable {D I : Type} {a : Animations D I} {Meets : Animations D I → Action D I → Prop}

theorem Run.inv (h : Run Meets a) (hmeets : ∀ a action, Meets a action → a.FramesDelay action) : a.Inv := by
  induction h with
  | start hfresh => exact inv_fresh hfresh
  | act _ hallowed hmeet ih => exact (ih.act _ hallowed (hmeets _ _ hmeet)).1

theorem Run.forgets (h : Run Meets a) (hdelay : ∀ a action, Meets a action → a.FramesDelay action)
    (hnew : ∀ a action, Meets a action → a.TokensNew action) : a.tables.Forgets := by
  induction h with
  | start hfresh =>
    intro i _ k t j hrun
    have hnone := (fresh_tables (D := D) (I := I) hfresh 0 k).2
    exact absurd (hrun.symm.trans hnone) (Option.some_ne_none _)
  | act hrun hallowed hmeet ih =>
    have hinv := hrun.inv hdelay
    exact (hinv.act _ hallowed (hdelay _ _ hmeet)).2.forgets (hnew _ _ hmeet) hinv.linked ih

/-- While no tick draws a frame without a delay, each state in use has its executor and nobody else has one. Where
the tokens of a start are new to the states out of use, the token alone says so. -/
theorem animation_slots {D I : Type} {a : Animations D I} :
    (Run FramesDelay a →
        a.InUseIffOwned ∧ a.StartsRun ∧ a.StopsAlone ∧ a.FailedStartFrees ∧ a.FailedRenderFrees) ∧
      (Run (fun a action => a.FramesDelay action ∧ a.TokensNew action) a → a.InUseIffHeld) := by
  constructor
  · intro h
    have hinv := h.inv fun _ _ hmeet => hmeet
    exact ⟨hinv.inUse_iff_owned, startsRun a, hinv.stopsAlone, hinv.failedStartFrees, hinv.failedRenderFrees⟩
  · intro h
    exact (h.inv fun _ _ hmeet => hmeet.1).inUse_iff_held
      (h.forgets (fun _ _ hmeet => hmeet.1) fun _ _ hmeet => hmeet.2)

end Run

def blinking (delay : BitVec 16) : Pictures Unit Unit := ⟨fun _ _ _ _ _ _ _ => some delay, fun _ => 2⟩

def blink (delay : BitVec 16) : Action Unit Unit := .animate (blinking delay) (some ()) 0 0 (some ()) ⟨0, 0, 255⟩ ⟨0, 0, 0⟩

theorem blinking_delay {delay : BitVec 16} (h : delay ≠ 0) (state : AnimationState Unit Unit) :
    (state.qpRenderAnimationState (blinking delay)).1 ≠ some 0 := by
  unfold AnimationState.qpRenderAnimationState
  split
  · exact fun heq => h (Option.some.inj heq)
  · exact nofun

/-- Two animations in a table of two; a tick draws a frame of the first, which is then stopped. -/
def blinks : List (Action Unit Unit) :=
  [blink 1, blink 500, .elapse, .beginTick, .look (blinking 500), .look (blinking 500), .look (blinking 500), .stop 1]

theorem blinks_run {Meets : Animations Unit Unit → Action Unit Unit → Prop}
    (hfirst : Meets (fresh (Machine.fresh Nat 2)) (blink 1))
    (hsecond : Meets ((fresh (Machine.fresh Nat 2)).act (blink 1)) (blink 500))
    (hlook : ∀ a, Meets a (.look (blinking 500))) (helapse : ∀ a, Meets a .elapse) (hbegin : ∀ a, Meets a .beginTick)
    (hstop : ∀ a, Meets a (.stop 1)) : Run Meets (blinks.foldl act (fresh (Machine.fresh Nat 2))) := by
  have hstart : Run Meets (fresh (Machine.fresh Nat 2)) := .start (Machine.fresh_fresh Nat 2)
  have htick : Run Meets ([blink 1, blink 500, .elapse, .beginTick].foldl act (fresh (Machine.fresh Nat 2))) :=
    (((hstart.act (by rfl) hfirst).act (by rfl) hsecond).act (by trivial) (helapse _)).act (by rfl) (hbegin _)
  have hlooked := ((htick.act (by exact List.cons_ne_nil _ _) (hlook _)).act (by exact List.cons_ne_nil _ _)
    (hlook _)).act (by exact List.cons_ne_nil _ _) (hlook _)
  exact hlooked.act (by rfl) (hstop _)

theorem animation_slots_blinks :
    let a := blinks.foldl act (fresh (Machine.fresh Nat 2))
    ¬ a.InUse 0 ∧ a.InUse 1 ∧ a.InUseIffOwned ∧ a.InUseIffHeld := by
  have hdelay (a : Animations Unit Unit) : a.FramesDelay (.look (blinking 500)) :=
    fun _ _ _ _ state _ _ _ _ _ => blinking_delay (by decide) state
  have hfirst : (fresh (Machine.fresh Nat 2)).TokensNew (blink 1) := by
    intro i j state _ _ hstate _ _
    exact congrArg AnimationState.deferToken (List.eq_of_mem_replicate (List.mem_of_getElem? hstate))
  have hsecond : ((fresh (Machine.fresh Nat 2)).act (blink 1)).TokensNew (blink 500) := by
    intro i j state hfound hj hstate hfree _
    obtain rfl : i = 1 := Option.some.inj (hfound.symm.trans (by decide))
    match j, hj with
    | 0, _ => exact absurd (Option.some.inj hstate ▸ Option.some_ne_none ()) hfree
    | _ + 2, _ => cases hstate
  have hrun : Run FramesDelay (blinks.foldl act (fresh (Machine.fresh Nat 2))) :=
    blinks_run trivial trivial hdelay (fun _ => trivial) (fun _ => trivial) fun _ => trivial
  have hnew : Run (fun a action => a.FramesDelay action ∧ a.TokensNew action)
      (blinks.foldl act (fresh (Machine.fresh Nat 2))) :=
    blinks_run ⟨trivial, hfirst⟩ ⟨trivial, hsecond⟩ (fun a => ⟨hdelay a, trivial⟩) (fun _ => ⟨trivial, trivial⟩)
      (fun _ => ⟨trivial, trivial⟩) fun _ => ⟨trivial, trivial⟩
  refine ⟨?_, ⟨_, rfl, Option.some_ne_none _⟩, (animation_slots.1 hrun).1, animation_slots.2 hnew⟩
  rintro ⟨state, hstate, hused⟩
  exact hused (Option.some.inj hstate ▸ rfl)

/-- The second frame has no delay: the executor ends, and the state stays in use. -/
theorem animation_slot_leaks : ¬ ∀ a : Animations Unit Unit, Run (fun _ _ => True) a → a.InUseIffHeld := by
  intro hheld
  have hstart : Run (fun _ _ => True) ((fresh (Machine.fresh Nat 1)).act (blink 1)) :=
    .act (.start (Machine.fresh_fresh Nat 1)) rfl trivial
  have htick : Run (fun _ _ => True) ((((fresh (Machine.fresh Nat 1)).act (blink 1)).act .elapse).act .beginTick) :=
    .act (.act hstart trivial trivial) rfl trivial
  have hlook : Run (fun _ _ => True)
      (((((fresh (Machine.fresh Nat 1)).act (blink 1)).act .elapse).act .beginTick).act (.look (blinking 0))) :=
    .act htick (List.cons_ne_nil _ _) trivial
  obtain ⟨k, ⟨e, hlive, -⟩, -⟩ := (hheld _ hlook 0 _ rfl).mp (Option.some_ne_none _)
  have hmem : e ∈ [Executor.free Nat] := List.mem_of_getElem? hlive.1
  exact hlive.2 (List.mem_singleton.mp hmem ▸ rfl)

end Animations
end Painter
end VialQmk
