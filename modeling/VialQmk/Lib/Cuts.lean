import Mathlib.Tactic.Common

/-!
# Lib.Cuts

Runs of operations that can be cut off between any two of them.

* `runAll`: a whole run.
* `Allowed A`: every operation is allowed in the state it finds.
* `EveryCut P`: wherever the run is cut off, `P` holds of the operations done and of the state they leave.
-/

namespace VialQmk
namespace Lib

variable {σ ο : Type*} {run : σ → ο → σ}

def runAll (run : σ → ο → σ) (s : σ) (ops : List ο) : σ := ops.foldl run s

def Allowed (run : σ → ο → σ) (A : σ → ο → Prop) : σ → List ο → Prop
  | _, [] => True
  | s, op :: ops => A s op ∧ Allowed run A (run s op) ops

def EveryCut (run : σ → ο → σ) (P : List ο → σ → Prop) (s : σ) (ops : List ο) : Prop :=
  ∀ k, P (ops.take k) (runAll run s (ops.take k))

theorem runAll_append (s : σ) (ops ops' : List ο) : runAll run s (ops ++ ops') = runAll run (runAll run s ops) ops' :=
  List.foldl_append

theorem allowed_append {A : σ → ο → Prop} (ops ops' : List ο) :
    ∀ s, Allowed run A s (ops ++ ops') ↔ Allowed run A s ops ∧ Allowed run A (runAll run s ops) ops' := by
  induction ops with
  | nil =>
    intro s
    exact (and_iff_right trivial).symm
  | cons op ops ih =>
    intro s
    rw [List.cons_append, Allowed, Allowed, ih, and_assoc]
    rfl

variable {P : List ο → σ → Prop}

theorem everyCut_nil {s : σ} : EveryCut run P s [] ↔ P [] s := by
  constructor
  · intro h
    exact h 0
  · intro h k
    rw [List.take_nil]
    exact h

theorem EveryCut.mono {Q : List ο → σ → Prop} {s : σ} {ops : List ο} (h : EveryCut run P s ops)
    (hPQ : ∀ done s', P done s' → Q done s') : EveryCut run Q s ops := fun k => hPQ _ _ (h k)

theorem everyCut_append {s : σ} {ops ops' : List ο} : EveryCut run P s (ops ++ ops') ↔
      EveryCut run P s ops ∧ EveryCut run (fun done => P (ops ++ done)) (runAll run s ops) ops' := by
  constructor
  · intro h
    refine ⟨fun k => ?_, fun k => ?_⟩
    · by_cases hk : k ≤ ops.length
      · have hcut := h k
        rwa [List.take_append_of_le_length hk] at hcut
      · have hcut := h ops.length
        rwa [List.take_left, ← List.take_of_length_le (Nat.le_of_not_le hk)] at hcut
    · have hcut := h (ops.length + k)
      rwa [List.take_length_add_append, runAll_append] at hcut
  · rintro ⟨hops, hops'⟩ k
    by_cases hk : k ≤ ops.length
    · rw [List.take_append_of_le_length hk]
      exact hops k
    · have hcut := hops' (k - ops.length)
      rwa [← runAll_append, ← List.take_length_add_append, Nat.add_sub_cancel' (Nat.le_of_not_le hk)] at hcut

theorem everyCut_cons {s : σ} {op : ο} {ops : List ο} :
    EveryCut run P s (op :: ops) ↔ P [] s ∧ EveryCut run (fun done => P (op :: done)) (run s op) ops := by
  constructor
  · intro h
    exact ⟨h 0, fun k => h (k + 1)⟩
  · rintro ⟨h0, h⟩ k
    cases k with
    | zero => exact h0
    | succ k => exact h k

end Lib
end VialQmk
