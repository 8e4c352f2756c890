import Mathlib.Data.List.Basic
import Mathlib.Order.Monotone.Basic

/-!
# Lib.Samples

A signal that is read at certain times. A history holds the samples, the newest one first.

* `held view v h`: the samples since which the part `view` of the signal has been `v`.
* `HeldFor view v ms h`: it has been `v` at every sample for at least `ms`.
* `Changes out x h`: what is derived from the history changes at the sample `x`.
* `clockTime m h`: how long the history takes on a clock that tells the distance of one sample to the next
  modulo `m` only.
* `history signal n`: the history of a signal that goes on without an end.
-/

namespace VialQmk
namespace Lib

structure Sample (α : Type) where
  time : Nat
  value : α

section Held

variable {α β : Type} {x : Sample α} {h : List (Sample α)}

def Ordered (h : List (Sample α)) : Prop := h.Pairwise fun later earlier => earlier.time ≤ later.time

variable [DecidableEq β] {view : α → β} {v : β} {start ms : Nat}

def held (view : α → β) (v : β) (h : List (Sample α)) : List (Sample α) :=
  h.takeWhile fun x => decide (view x.value = v)

def HeldFor (view : α → β) (v : β) (ms : Nat) : List (Sample α) → Prop
  | [] => False
  | x :: h => ∃ y ∈ held view v (x :: h), y.time + ms ≤ x.time

def HeldSince (view : α → β) (v : β) (start : Nat) (h : List (Sample α)) : Prop :=
  (∃ y ∈ held view v h, y.time = start) ∧ ∀ y ∈ held view v h, start ≤ y.time

theorem held_cons_of_eq (hv : view x.value = v) : held view v (x :: h) = x :: held view v h :=
  List.takeWhile_cons_of_pos (decide_eq_true hv)

theorem held_cons_of_ne (hv : view x.value ≠ v) : held view v (x :: h) = [] :=
  List.takeWhile_cons_of_neg fun hd => hv (of_decide_eq_true hd)

theorem held_subset (h : List (Sample α)) : held view v h ⊆ h := (List.takeWhile_prefix _).subset

theorem heldFor_iff (hsince : HeldSince view v start (x :: h)) :
    HeldFor view v ms (x :: h) ↔ start + ms ≤ x.time := by
  obtain ⟨⟨y, hy, hstart⟩, hleast⟩ := hsince
  constructor
  · rintro ⟨z, hz, htime⟩
    have := hleast z hz
    omega
  · intro htime
    exact ⟨y, hy, by omega⟩

theorem HeldSince.le (hsince : HeldSince view v start (x :: h)) (hordered : Ordered (x :: h)) :
    start ≤ x.time := by
  obtain ⟨⟨y, hy, rfl⟩, -⟩ := hsince
  rcases List.mem_cons.mp (held_subset _ hy) with rfl | hmem
  · exact Nat.le_refl _
  · exact (List.pairwise_cons.mp hordered).1 y hmem

theorem HeldSince.cons (hsince : HeldSince view v start h) (hordered : Ordered (x :: h))
    (hv : view x.value = v) : HeldSince view v start (x :: h) := by
  obtain ⟨⟨y, hy, rfl⟩, hleast⟩ := hsince
  rw [HeldSince, held_cons_of_eq hv]
  refine ⟨⟨y, List.mem_cons_of_mem _ hy, rfl⟩, fun z hz => ?_⟩
  rcases List.mem_cons.mp hz with rfl | hz
  · exact (List.pairwise_cons.mp hordered).1 y (held_subset _ hy)
  · exact hleast z hz

theorem heldSince_new (hv : view x.value = v) (hnew : held view v h = []) :
    HeldSince view v x.time (x :: h) := by
  rw [HeldSince, held_cons_of_eq hv, hnew]
  exact ⟨⟨x, List.mem_singleton_self x, rfl⟩, fun y hy => List.mem_singleton.mp hy ▸ Nat.le_refl _⟩

end Held

section Clock

variable {α β : Type} {m : Nat} {x y : Sample α} {h h' : List (Sample α)}

/-- What the clock tells: the time since the sample before, modulo `m`. -/
def tick (m : Nat) (x : Sample α) : List (Sample α) → Nat
  | [] => 0
  | y :: _ => (x.time - y.time) % m

def clockTime (m : Nat) : List (Sample α) → Nat
  | [] => 0
  | x :: h => clockTime m h + tick m x h

theorem clockTime_mono (hsuffix : h' <:+ h) : clockTime m h' ≤ clockTime m h := by
  induction h with
  | nil => exact Nat.le_of_eq (congrArg _ (List.suffix_nil.mp hsuffix))
  | cons x h ih =>
    rcases List.suffix_cons_iff.mp hsuffix with rfl | hsuffix
    · exact Nat.le_refl _
    · exact Nat.le_trans (ih hsuffix) (Nat.le_add_right _ _)

theorem tick_le (m : Nat) (x : Sample α) (y : Sample α) (h : List (Sample α)) : tick m x (y :: h) ≤ x.time - y.time :=
  Nat.mod_le _ _

theorem Ordered.tail (hordered : Ordered (x :: h)) : Ordered h := (List.pairwise_cons.mp hordered).2

def realTime : List (Sample α) → Nat
  | [] => 0
  | x :: _ => x.time

/-- No two samples that follow each other are as far apart as the clock takes to turn over. -/
def Close (m : Nat) (h : List (Sample α)) : Prop :=
  ∀ x t, x :: t <:+ h → ∀ y ∈ t.head?, x.time - y.time < m

theorem clockTime_of_close (hordered : Ordered h) (hclose : Close m h) (hsuffix : y :: h' <:+ h) :
    clockTime m (y :: h') + realTime h = clockTime m h + y.time := by
  induction h with
  | nil => exact absurd (List.suffix_nil.mp hsuffix) (List.cons_ne_nil y h')
  | cons x t ih =>
    rcases List.suffix_cons_iff.mp hsuffix with heq | hsuffix
    · obtain ⟨rfl, rfl⟩ := List.cons.inj heq
      rfl
    · have hrest := ih hordered.tail (fun z u hz => hclose z u (hz.trans (List.suffix_cons x t))) hsuffix
      cases t with
      | nil => exact absurd (List.suffix_nil.mp hsuffix) (List.cons_ne_nil y h')
      | cons z t =>
        have hgap := hclose x (z :: t) (List.suffix_refl _) z rfl
        have hle := (List.pairwise_cons.mp hordered).1 z List.mem_cons_self
        have htick : tick m x (z :: t) = x.time - z.time := Nat.mod_eq_of_lt hgap
        show _ + x.time = clockTime m (z :: t) + tick m x (z :: t) + y.time
        change _ + z.time = _ at hrest
        omega

def Changes (out : List (Sample α) → β) (x : Sample α) (h : List (Sample α)) : Prop := out (x :: h) ≠ out h

def samples (view : α → β) (h : List (Sample α)) : List (Sample β) := h.map fun x => ⟨x.time, view x.value⟩

@[simp] theorem samples_cons (view : α → β) (x : Sample α) (h : List (Sample α)) :
    samples view (x :: h) = ⟨x.time, view x.value⟩ :: samples view h := rfl

theorem tick_samples (view : α → β) (x : Sample α) (h : List (Sample α)) :
    tick m ⟨x.time, view x.value⟩ (samples view h) = tick m x h := by
  cases h <;> rfl

end Clock

section Signal

variable {α : Type} {m : Nat}

def history (signal : Nat → Sample α) : Nat → List (Sample α)
  | 0 => []
  | n + 1 => signal n :: history signal n

theorem history_suffix (signal : Nat → Sample α) {n k : Nat} (hle : n ≤ k) : history signal n <:+ history signal k := by
  induction hle with
  | refl => exact List.suffix_refl _
  | step _ ih => exact ih.trans (List.suffix_cons _ _)

theorem ordered_history {signal : Nat → Sample α} (hordered : ∀ n, (signal n).time ≤ (signal (n + 1)).time) (n : Nat) :
    Ordered (history signal n) := by
  have hmono : Monotone fun n => (signal n).time := monotone_nat_of_le_succ hordered
  have hmem : ∀ n, ∀ x ∈ history signal n, ∃ k < n, signal k = x := by
    intro n
    induction n with
    | zero => exact fun x hx => absurd hx List.not_mem_nil
    | succ n ih =>
      intro x hx
      rcases List.mem_cons.mp hx with rfl | hx
      · exact ⟨n, Nat.lt_succ_self n, rfl⟩
      · obtain ⟨k, hk, heq⟩ := ih x hx
        exact ⟨k, Nat.lt_succ_of_lt hk, heq⟩
  induction n with
  | zero => exact List.Pairwise.nil
  | succ n ih =>
    refine List.pairwise_cons.mpr ⟨fun x hx => ?_, ih⟩
    obtain ⟨k, hk, rfl⟩ := hmem n x hx
    exact hmono (Nat.le_of_lt hk)

theorem ticks_of_unbounded {signal : Nat → Sample α} (hclock : ∀ t, ∃ n, t ≤ clockTime m (history signal n)) (k : Nat) :
    ∃ n, k ≤ n ∧ 0 < tick m (signal n) (history signal n) := by
  by_contra hstill
  have hconst : ∀ j, clockTime m (history signal (k + j)) = clockTime m (history signal k) := by
    intro j
    induction j with
    | zero => rfl
    | succ j ih =>
      have hzero : ¬ 0 < tick m (signal (k + j)) (history signal (k + j)) :=
        fun hpos => hstill ⟨k + j, Nat.le_add_right k j, hpos⟩
      show clockTime m (history signal (k + j)) + tick m (signal (k + j)) (history signal (k + j)) = _
      omega
  obtain ⟨n, hn⟩ := hclock (clockTime m (history signal k) + 1)
  rcases Nat.lt_or_ge n k with hlt | hge
  · have hmono : clockTime m _ ≤ _ := clockTime_mono (history_suffix signal (Nat.le_of_lt hlt))
    omega
  · obtain ⟨j, rfl⟩ := Nat.exists_eq_add_of_le hge
    rw [hconst j] at hn
    omega

theorem ends_of_shrinks {left : Nat → Nat} {k : Nat} (hmono : ∀ n, k ≤ n → left (n + 1) ≤ left n)
    (hshrinks : ∀ n, k ≤ n → ∃ j, n ≤ j ∧ (0 < left j → left (j + 1) < left j)) :
    ∃ n, k ≤ n ∧ ∀ j, n ≤ j → left j = 0 := by
  have hanti : ∀ n, k ≤ n → ∀ j, n ≤ j → left j ≤ left n := by
    intro n hn j hj
    induction hj with
    | refl => exact Nat.le_refl _
    | step hj ih => exact Nat.le_trans (hmono _ (Nat.le_trans hn hj)) ih
  have hends : ∀ amount n, k ≤ n → left n ≤ amount → ∃ j, k ≤ j ∧ left j = 0 := by
    intro amount
    induction amount with
    | zero => exact fun n hn hle => ⟨n, hn, Nat.eq_zero_of_le_zero hle⟩
    | succ amount ih =>
      intro n hn hle
      obtain ⟨j, hj, hless⟩ := hshrinks n hn
      rcases Nat.eq_zero_or_pos (left j) with hzero | hpos
      · exact ⟨j, Nat.le_trans hn hj, hzero⟩
      · have hbefore := hanti n hn j hj
        have hafter := hless hpos
        exact ih (j + 1) (by omega) (by omega)
  obtain ⟨n, hn, hzero⟩ := hends (left k) k (Nat.le_refl k) (Nat.le_refl _)
  exact ⟨n, hn, fun j hj => Nat.eq_zero_of_le_zero (hzero ▸ hanti n hn j hj)⟩

end Signal

end Lib
end VialQmk
