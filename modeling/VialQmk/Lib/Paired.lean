import Mathlib.Data.List.Basic
import Mathlib.Logic.Function.Basic
import Mathlib.Tactic.Common

/-!
# Lib.Paired

A log of openings and closings, the newest first. Each key holds a value from its opening to its closing, and
is closed on the value that it holds.

* `Paired.closed_once`: an opened key that holds nothing any more was closed by the next entry about it.
-/

namespace VialQmk
namespace Lib

variable {κ ν : Type*}

inductive Edge (κ ν : Type*) where
  | opened (k : κ) (v : ν)
  | closed (k : κ) (v : ν)
deriving DecidableEq, Repr

def Edge.key : Edge κ ν → κ
  | opened k _ => k
  | closed k _ => k

section Held

variable [DecidableEq κ]

def heldBehind : List (Edge κ ν) → κ → Option ν
  | [] => fun _ => none
  | .opened k v :: log => Function.update (heldBehind log) k (some v)
  | .closed k _ :: log => Function.update (heldBehind log) k none

/-- No key is opened twice in a row, and none is closed but on what it holds. -/
def Paired : List (Edge κ ν) → Prop
  | [] => True
  | .opened k _ :: log => heldBehind log k = none ∧ Paired log
  | .closed k v :: log => heldBehind log k = some v ∧ Paired log

instance decidablePaired [DecidableEq ν] : (log : List (Edge κ ν)) → Decidable (Paired log)
  | [] => inferInstanceAs (Decidable True)
  | .opened _ _ :: log => @instDecidableAnd _ _ _ (decidablePaired log)
  | .closed _ _ :: log => @instDecidableAnd _ _ _ (decidablePaired log)

theorem heldBehind_opened_self (k : κ) (v : ν) (log : List (Edge κ ν)) :
    heldBehind (.opened k v :: log) k = some v := Function.update_self _ _ _

theorem heldBehind_closed_self (k : κ) (v : ν) (log : List (Edge κ ν)) :
    heldBehind (.closed k v :: log) k = none := Function.update_self _ _ _

theorem heldBehind_cons_of_ne {e : Edge κ ν} {k : κ} (log : List (Edge κ ν)) (hne : k ≠ e.key) :
    heldBehind (e :: log) k = heldBehind log k := by
  cases e with
  | opened k' v => exact Function.update_of_ne hne _ _
  | closed k' v => exact Function.update_of_ne hne _ _

theorem heldBehind_append_of_forall {newer : List (Edge κ ν)} {k : κ} (log : List (Edge κ ν))
    (h : ∀ e ∈ newer, e.key ≠ k) : heldBehind (newer ++ log) k = heldBehind log k := by
  induction newer with
  | nil => rfl
  | cons e newer ih =>
    have hrest := ih fun d hd => h d (List.mem_cons_of_mem e hd)
    exact (heldBehind_cons_of_ne _ (Ne.symm (h e List.mem_cons_self))).trans hrest

namespace Paired

variable {log newer older : List (Edge κ ν)} {k : κ} {v : ν}

theorem tail {e : Edge κ ν} (h : Paired (e :: log)) : Paired log := by
  cases e with
  | opened k v => exact h.2
  | closed k v => exact h.2

theorem untouched_or_closed (h : Paired (newer ++ log)) (hheld : heldBehind log k = some v) :
    (∀ e ∈ newer, e.key ≠ k) ∨
      ∃ later between, newer = later ++ .closed k v :: between ∧ ∀ e ∈ between, e.key ≠ k := by
  induction newer with
  | nil =>
    left
    intro e he
    cases he
  | cons e newer ih =>
    rcases ih h.tail with hfree | ⟨later, between, rfl, hbetween⟩
    · have hstill : heldBehind (newer ++ log) k = some v := (heldBehind_append_of_forall log hfree).trans hheld
      by_cases hkey : e.key = k
      · right
        cases e with
        | opened k' w =>
          subst hkey
          cases hstill.symm.trans h.1
        | closed k' w =>
          subst hkey
          cases hstill.symm.trans h.1
          exact ⟨[], newer, rfl, hfree⟩
      · left
        intro d hd
        rcases List.mem_cons.mp hd with rfl | hd
        · exact hkey
        · exact hfree d hd
    · exact .inr ⟨e :: later, between, rfl, hbetween⟩

/-- An opening of a key that holds nothing any more is answered by the next entry about the key. -/
theorem closed_once (h : Paired (newer ++ .opened k v :: older))
    (hnow : heldBehind (newer ++ .opened k v :: older) k = none) :
    ∃ later between, newer = later ++ .closed k v :: between ∧ ∀ e ∈ between, e.key ≠ k := by
  have hheld := heldBehind_opened_self k v older
  rcases untouched_or_closed h hheld with hfree | hclosed
  · have hstill := (heldBehind_append_of_forall _ hfree).trans hheld
    cases hstill.symm.trans hnow
  · exact hclosed

end Paired

end Held

end Lib
end VialQmk
