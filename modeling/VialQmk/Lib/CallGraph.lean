import VialQmk.Lib.Nested
import Mathlib.Data.Set.Card
import Mathlib.Order.CompletePartialOrder
import Mathlib.Logic.Relation

/-!
# Lib.CallGraph

When nested calls come to an end, from the graph of what calls what.

* `tie_returns`: without a circle from `i` on, a call of `i` returns, and no more calls are nested than procedures
  can be reached.
* `NoCircle.of_returns`: where every edge is taken whenever the procedure returns, a call that returns is not on a
  circle and does not lead to one.
-/

namespace VialQmk
namespace Lib

open Relation

universe u v

variable {ι : Type u} {σ : Type v} {body : Call ι σ → Call ι σ} {R : ι → ι → Prop} {i j : ι}

def NoCircle (R : ι → ι → Prop) (i : ι) : Prop := ∀ j, ReflTransGen R i j → ¬ TransGen R j j

def reachable (R : ι → ι → Prop) (i : ι) : Set ι := {j | ReflTransGen R i j}

theorem NoCircle.next (h : NoCircle R i) (hij : R i j) : NoCircle R j := fun _ hjk =>
  h _ (ReflTransGen.head hij hjk)

theorem NoCircle.reachable_ssubset (h : NoCircle R i) (hij : R i j) : reachable R j ⊂ reachable R i := by
  refine ⟨fun _ hk => ReflTransGen.head hij hk, fun hsub => ?_⟩
  have hji : ReflTransGen R j i := hsub ReflTransGen.refl
  exact h i .refl (TransGen.head' hij hji)

theorem tie_returns {n : Nat} : ∀ {i : ι}, NoCircle R i → (reachable R i).Finite → (reachable R i).ncard ≤ n →
    (∀ j ∈ reachable R i, ∀ call : Call ι σ, (∀ k, R j k → ∀ s, (call k s).isSome = true) →
      ∀ s, (body call j s).isSome = true) →
    ∀ s, (tie body n i s).isSome = true := by
  induction n with
  | zero =>
    intro i _ hfin hn _
    have hne : (reachable R i).Nonempty := ⟨i, .refl⟩
    exact absurd ((Set.ncard_pos hfin).mpr hne) (by omega)
  | succ n ih =>
    intro i hi hfin hn hbody
    refine hbody i .refl (tie body n) fun j hij => ?_
    have hlt := hi.reachable_ssubset hij
    have hcard := Set.ncard_lt_ncard hlt hfin
    exact ih (hi.next hij) (hfin.subset hlt.subset) (by omega) fun k hk => hbody k (hlt.subset hk)

section Must

variable (hbody : ∀ (call : Call ι σ) i j, R i j → ∀ s, (body call i s).isSome = true →
  ∃ s', (call j s').isSome = true)

include hbody

theorem tie_transGen {n : Nat} {s : σ} (h : (tie body n i s).isSome = true) (hij : TransGen R i j) :
    ∃ n' s', n' < n ∧ (tie body n' j s').isSome = true := by
  induction hij with
  | single hij =>
    cases n with
    | zero => cases h
    | succ n =>
      obtain ⟨s', hs'⟩ := hbody (tie body n) i _ hij s h
      exact ⟨n, s', Nat.lt_succ_self n, hs'⟩
  | tail _ hjk ih =>
    obtain ⟨n', s', hn', hs'⟩ := ih
    cases n' with
    | zero => cases hs'
    | succ n' =>
      obtain ⟨s'', hs''⟩ := hbody (tie body n') _ _ hjk s' hs'
      exact ⟨n', s'', by omega, hs''⟩

theorem tie_none_of_circle (hi : TransGen R i i) (n : Nat) : ∀ s, tie body n i s = none := by
  induction n using Nat.strongRecOn with
  | ind n ih =>
    intro s
    by_contra hs
    obtain ⟨n', s', hn', hs'⟩ := tie_transGen hbody (Option.isSome_iff_ne_none.mpr hs) hi
    rw [ih n' hn' s'] at hs'
    cases hs'

theorem tie_reachable {n : Nat} {s : σ} (h : (tie body n i s).isSome = true) (hij : ReflTransGen R i j) :
    ∃ n' s', (tie body n' j s').isSome = true := by
  rcases reflTransGen_iff_eq_or_transGen.mp hij with rfl | hij
  · exact ⟨n, s, h⟩
  · obtain ⟨n', s', -, hs'⟩ := tie_transGen hbody h hij
    exact ⟨n', s', hs'⟩

theorem NoCircle.of_returns {n : Nat} {s : σ} (h : (tie body n i s).isSome = true) : NoCircle R i := by
  intro j hij hjj
  obtain ⟨n', s', hs'⟩ := tie_reachable hbody h hij
  rw [tie_none_of_circle hbody hjj n' s'] at hs'
  cases hs'

end Must

end Lib
end VialQmk
