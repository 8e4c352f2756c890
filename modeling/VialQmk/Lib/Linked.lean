import Mathlib.Order.Basic
import Mathlib.Tactic.Common

/-!
# Lib.Linked

Two tables that tokens link: a slot in use holds the token of one entry that runs for it. A slot that is out of use
may hold the token of an entry yet, as long as nobody who looks for that token meets this slot first.

* `Starts.linked`, `Stops.linked`, `Leaves.linked`: the steps that keep the tables linked.
* `Linked.used_iff`: a slot in use is one whose token exactly one entry has that runs for it.
* `Linked.used_iff_token`: the token alone says so where no slot out of use holds that of an entry.
-/

namespace VialQmk
namespace Lib

/-- The tokens that the slots hold, the slots in use, and the entries that run, each with its token for a slot. -/
structure Tables (S E T : Type*) where
  held : S → Option T
  used : S → Prop
  run : E → Option (T × S)

namespace Tables

variable {S E T : Type*}

structure Linked [LT S] (x : Tables S E T) : Prop where
  owner : ∀ k t i, x.run k = some (t, i) → x.used i ∧ x.held i = some t
  owned : ∀ i, x.used i → ∃ k t, x.run k = some (t, i)
  distinct : ∀ k l t i j, x.run k = some (t, i) → x.run l = some (t, j) → k = l
  first : ∀ i j, i < j → x.used j → x.held i ≠ x.held j

def Forgets (x : Tables S E T) : Prop := ∀ i, ¬ x.used i → ∀ k t j, x.run k = some (t, j) → x.held i ≠ some t

/-- The first slot out of use begins to run, with a token that no entry has. -/
structure Starts [LT S] (x x' : Tables S E T) (i : S) (k : E) (t : T) : Prop where
  lower : ∀ j < i, x.used j
  free : ¬ x.used i
  idle : x.run k = none
  fresh : ∀ l j, x.run l ≠ some (t, j)
  held_ne : ∀ j ≠ i, x'.held j = x.held j
  used_ne : ∀ j ≠ i, (x'.used j ↔ x.used j)
  run_ne : ∀ l ≠ k, x'.run l = x.run l
  held_self : x'.held i = some t
  used_self : x'.used i
  run_self : x'.run k = some (t, i)

structure Stops (x x' : Tables S E T) (i : S) (k : E) : Prop where
  runs : ∃ t, x.run k = some (t, i)
  held : ∀ j, x'.held j = x.held j
  used_ne : ∀ j ≠ i, (x'.used j ↔ x.used j)
  run_ne : ∀ l ≠ k, x'.run l = x.run l
  used_self : ¬ x'.used i
  run_self : x'.run k = none

/-- A slot out of use stays so, and what it holds is no token of an entry if it is anything new. -/
structure Leaves (x x' : Tables S E T) (i : S) : Prop where
  free : ¬ x.used i
  held_ne : ∀ j ≠ i, x'.held j = x.held j
  held_self : x'.held i = x.held i ∨ ∀ k t j, x.run k = some (t, j) → x'.held i ≠ some t
  used : ∀ j, (x'.used j ↔ x.used j)
  run : ∀ l, x'.run l = x.run l

section Keeps

variable {x x' : Tables S E T} {i j : S} {k l : E} {t u : T}

theorem linked_of_empty [LT S] (hused : ∀ i, ¬ x.used i) (hrun : ∀ k, x.run k = none) : x.Linked where
  owner k t i hk := by
    rw [hrun k] at hk
    cases hk
  owned i hi := absurd hi (hused i)
  distinct k l t i j hk := by
    rw [hrun k] at hk
    cases hk
  first i j _ hj := absurd hj (hused j)

theorem Linked.held_of_used [LT S] (h : x.Linked) (hi : x.used i) : ∃ k t, x.run k = some (t, i) ∧ x.held i = some t := by
  obtain ⟨k, t, hk⟩ := h.owned i hi
  exact ⟨k, t, hk, (h.owner k t i hk).2⟩

theorem Linked.used_iff [LT S] (h : x.Linked) : x.used i ↔ ∃! k, ∃ t, x.run k = some (t, i) ∧ x.held i = some t := by
  constructor
  · intro hi
    obtain ⟨k, t, hk, hheld⟩ := h.held_of_used hi
    refine ⟨k, ⟨t, hk, hheld⟩, fun l ⟨u, hl, hheld'⟩ => ?_⟩
    rw [hheld] at hheld'
    cases hheld'
    exact h.distinct l k t i i hl hk
  · rintro ⟨k, ⟨t, hk, -⟩, -⟩
    exact (h.owner k t i hk).1

theorem Linked.used_iff_token [LT S] (h : x.Linked) (hforgets : x.Forgets) :
    x.used i ↔ ∃! k, ∃ t j, x.run k = some (t, j) ∧ x.held i = some t := by
  constructor
  · intro hi
    obtain ⟨k, t, hk, hheld⟩ := h.held_of_used hi
    refine ⟨k, ⟨t, i, hk, hheld⟩, fun l ⟨u, j, hl, hheld'⟩ => ?_⟩
    rw [hheld] at hheld'
    cases hheld'
    exact h.distinct l k t j i hl hk
  · rintro ⟨k, ⟨t, j, hk, hheld⟩, -⟩
    by_contra hi
    exact hforgets i hi k t j hk hheld

section Starts

theorem Starts.run_cases [LT S] (h : x.Starts x' i k t) (hl : x'.run l = some (u, j)) :
    (l = k ∧ u = t ∧ j = i) ∨ (l ≠ k ∧ x.run l = some (u, j)) := by
  by_cases hlk : l = k
  · subst hlk
    rw [h.run_self] at hl
    cases hl
    exact .inl ⟨rfl, rfl, rfl⟩
  · rw [h.run_ne l hlk] at hl
    exact .inr ⟨hlk, hl⟩

theorem Starts.other [LT S] (h : x.Starts x' i k t) (hx : x.Linked) (hj : x.used j) : j ≠ i ∧ x.held j ≠ some t := by
  refine ⟨fun heq => h.free (heq ▸ hj), fun heq => ?_⟩
  obtain ⟨l, u, hl, hheld⟩ := hx.held_of_used hj
  rw [hheld] at heq
  cases heq
  exact h.fresh l j hl

theorem Starts.linked [LT S] (h : x.Starts x' i k t) (hx : x.Linked) : x'.Linked where
  owner l u j hl := by
    rcases h.run_cases hl with ⟨-, rfl, rfl⟩ | ⟨-, hl⟩
    · exact ⟨h.used_self, h.held_self⟩
    · obtain ⟨hj, hheld⟩ := hx.owner l u j hl
      have hne := (h.other hx hj).1
      exact ⟨(h.used_ne j hne).mpr hj, (h.held_ne j hne).trans hheld⟩
  owned j hj := by
    by_cases hji : j = i
    · rw [hji]
      exact ⟨k, t, h.run_self⟩
    · obtain ⟨l, u, hl⟩ := hx.owned j ((h.used_ne j hji).mp hj)
      have hlk : l ≠ k := by
        rintro rfl
        rw [h.idle] at hl
        cases hl
      exact ⟨l, u, (h.run_ne l hlk).trans hl⟩
  distinct l l' u j j' hl hl' := by
    rcases h.run_cases hl with ⟨rfl, rfl, -⟩ | ⟨-, hl⟩ <;> rcases h.run_cases hl' with ⟨rfl, hu, -⟩ | ⟨-, hl'⟩
    · rfl
    · exact absurd hl' (h.fresh l' j')
    · exact absurd (hu ▸ hl) (h.fresh l j)
    · exact hx.distinct l l' u j j' hl hl'
  first j j' hlt hj' := by
    by_cases hj'i : j' = i
    · subst hj'i
      have hj := h.other hx (h.lower j hlt)
      rw [h.held_self, h.held_ne j hj.1]
      exact hj.2
    · have hj' := (h.used_ne j' hj'i).mp hj'
      rw [h.held_ne j' hj'i]
      by_cases hji : j = i
      · rw [hji, h.held_self]
        exact (h.other hx hj').2.symm
      · rw [h.held_ne j hji]
        exact hx.first j j' hlt hj'

theorem Starts.forgets [LT S] (h : x.Starts x' i k t) (hx : x.Forgets)
    (hnew : ∀ j ≠ i, ¬ x.used j → x.held j ≠ some t) : x'.Forgets := by
  intro j hj l u j' hl
  have hji : j ≠ i := fun heq => hj (heq ▸ h.used_self)
  have hj := (h.used_ne j hji).not.mp hj
  rw [h.held_ne j hji]
  rcases h.run_cases hl with ⟨-, rfl, -⟩ | ⟨-, hl⟩
  · exact hnew j hji hj
  · exact hx j hj l u j' hl

end Starts

section Stops

theorem Stops.run_ne_none (h : x.Stops x' i k) (hl : x'.run l = some (u, j)) : l ≠ k ∧ x.run l = some (u, j) := by
  have hlk : l ≠ k := by
    rintro rfl
    rw [h.run_self] at hl
    cases hl
  exact ⟨hlk, (h.run_ne l hlk).symm.trans hl⟩

theorem Stops.linked [LT S] (h : x.Stops x' i k) (hx : x.Linked) : x'.Linked where
  owner l u j hl := by
    obtain ⟨hlk, hl⟩ := h.run_ne_none hl
    obtain ⟨hj, hheld⟩ := hx.owner l u j hl
    refine ⟨(h.used_ne j ?_).mpr hj, (h.held j).trans hheld⟩
    rintro rfl
    obtain ⟨t, hk⟩ := h.runs
    have htoken := hheld.symm.trans (hx.owner k t j hk).2
    cases htoken
    exact hlk (hx.distinct l k u j j hl hk)
  owned j hj := by
    have hji : j ≠ i := fun heq => h.used_self (heq ▸ hj)
    obtain ⟨l, u, hl⟩ := hx.owned j ((h.used_ne j hji).mp hj)
    obtain ⟨t, hk⟩ := h.runs
    have hlk : l ≠ k := by
      rintro rfl
      rw [hk] at hl
      cases hl
      exact hji rfl
    exact ⟨l, u, (h.run_ne l hlk).trans hl⟩
  distinct l l' u j j' hl hl' := hx.distinct l l' u j j' (h.run_ne_none hl).2 (h.run_ne_none hl').2
  first j j' hlt hj' := by
    have hne : j' ≠ i := fun heq => h.used_self (heq ▸ hj')
    rw [h.held, h.held]
    exact hx.first j j' hlt ((h.used_ne j' hne).mp hj')

theorem Stops.forgets [LT S] (h : x.Stops x' i k) (hx : x.Linked) (hforgets : x.Forgets) : x'.Forgets := by
  intro j hj l u j' hl
  obtain ⟨hlk, hl⟩ := h.run_ne_none hl
  rw [h.held]
  by_cases hji : j = i
  · subst hji
    intro hheld
    obtain ⟨t, hk⟩ := h.runs
    have htoken := hheld.symm.trans (hx.owner k t j hk).2
    cases htoken
    exact hlk (hx.distinct l k u j' j hl hk)
  · exact hforgets j ((h.used_ne j hji).not.mp hj) l u j' hl

end Stops

section Leaves

theorem Leaves.linked [LT S] (h : x.Leaves x' i) (hx : x.Linked) : x'.Linked where
  owner l u j hl := by
    obtain ⟨hj, hheld⟩ := hx.owner l u j ((h.run l).symm.trans hl)
    have hne : j ≠ i := fun heq => h.free (heq ▸ hj)
    exact ⟨(h.used j).mpr hj, (h.held_ne j hne).trans hheld⟩
  owned j hj := by
    obtain ⟨l, u, hl⟩ := hx.owned j ((h.used j).mp hj)
    exact ⟨l, u, (h.run l).trans hl⟩
  distinct l l' u j j' hl hl' := hx.distinct l l' u j j' ((h.run l).symm.trans hl) ((h.run l').symm.trans hl')
  first j j' hlt hj' := by
    have hj' := (h.used j').mp hj'
    have hne : j' ≠ i := fun heq => h.free (heq ▸ hj')
    rw [h.held_ne j' hne]
    by_cases hji : j = i
    · subst hji
      rcases h.held_self with hsame | hnew
      · rw [hsame]
        exact hx.first j j' hlt hj'
      · obtain ⟨l, u, hl, hheld⟩ := hx.held_of_used hj'
        rw [hheld]
        exact hnew l u j' hl
    · rw [h.held_ne j hji]
      exact hx.first j j' hlt hj'

theorem Leaves.forgets (h : x.Leaves x' i) (hx : x.Forgets) : x'.Forgets := by
  intro j hj l u j' hl
  have hj := (h.used j).not.mp hj
  have hl := (h.run l).symm.trans hl
  by_cases hji : j = i
  · subst hji
    rcases h.held_self with hsame | hnew
    · rw [hsame]
      exact hx j hj l u j' hl
    · exact hnew l u j' hl
  · rw [h.held_ne j hji]
    exact hx j hj l u j' hl

end Leaves

end Keeps
end Tables
end Lib
end VialQmk
