import Mathlib.Data.Finset.Card
import Mathlib.Data.Finset.Dedup
import Mathlib.Tactic.Common

/-!
# Lib.Slots

A list with holes as a finite set: an element is put into a hole, and a hole is left where one is taken out.
-/

namespace VialQmk
namespace Lib

variable {α : Type*} [DecidableEq α]

/-- The entries that are no holes are the elements of the set, each once. -/
structure SlotsOf (hole : α) (xs : List α) (s : Finset α) : Prop where
  mem_iff : ∀ c, c ∈ s ↔ c ∈ xs ∧ c ≠ hole
  nodup : (xs.filter (· ≠ hole)).Nodup

namespace SlotsOf

variable {hole c : α} {xs l r : List α} {s : Finset α}

theorem hole_not_mem (h : SlotsOf hole xs s) : hole ∉ s := fun hmem => ((h.mem_iff hole).mp hmem).2 rfl

theorem toFinset_eq (h : SlotsOf hole xs s) : (xs.filter (· ≠ hole)).toFinset = s := by
  ext c
  rw [List.mem_toFinset, List.mem_filter, h.mem_iff, decide_eq_true_eq]

theorem card_eq (h : SlotsOf hole xs s) : s.card = (xs.filter (· ≠ hole)).length := by
  rw [← h.toFinset_eq, List.toFinset_card_of_nodup h.nodup]

theorem hole_mem (h : SlotsOf hole xs s) (hlt : s.card < xs.length) : hole ∈ xs := by
  by_contra hnot
  have hall : xs.filter (· ≠ hole) = xs := by
    rw [List.filter_eq_self]
    intro c hc
    exact decide_eq_true fun heq => hnot (heq ▸ hc)
  rw [h.card_eq, hall] at hlt
  exact Nat.lt_irrefl _ hlt

theorem holes (n : Nat) : SlotsOf hole (List.replicate n hole) ∅ where
  mem_iff c := by
    rw [List.mem_replicate]
    exact ⟨fun hc => absurd hc (Finset.notMem_empty c), fun ⟨⟨_, heq⟩, hne⟩ => absurd heq hne⟩
  nodup := by
    have hnil : (List.replicate n hole).filter (· ≠ hole) = [] := by
      rw [List.filter_eq_nil_iff]
      intro c hc
      rw [(List.mem_replicate.mp hc).2, decide_eq_true_eq]
      exact fun hne => hne rfl
    rw [hnil]
    exact List.nodup_nil

theorem put (h : SlotsOf hole (l ++ hole :: r) s) (hne : c ≠ hole) (hnot : c ∉ s) :
    SlotsOf hole (l ++ c :: r) (insert c s) where
  mem_iff x := by
    rw [Finset.mem_insert, h.mem_iff, List.mem_append, List.mem_append, List.mem_cons, List.mem_cons]
    constructor
    · rintro (rfl | ⟨hx | rfl | hx, hx'⟩)
      · exact ⟨.inr (.inl rfl), hne⟩
      · exact ⟨.inl hx, hx'⟩
      · exact absurd rfl hx'
      · exact ⟨.inr (.inr hx), hx'⟩
    · rintro ⟨hx | rfl | hx, hx'⟩
      · exact .inr ⟨.inl hx, hx'⟩
      · exact .inl rfl
      · exact .inr ⟨.inr (.inr hx), hx'⟩
  nodup := by
    have hnodup := h.nodup
    have hmem : c ∉ (l ++ hole :: r).filter (· ≠ hole) := by
      rw [List.mem_filter, decide_eq_true_eq, ← h.mem_iff]
      exact hnot
    rw [List.filter_append, List.filter_cons_of_neg (by simp)] at hnodup hmem
    rw [List.filter_append, List.filter_cons_of_pos (by simpa using hne)]
    exact List.nodup_middle.mpr (List.nodup_cons.mpr ⟨hmem, hnodup⟩)

theorem take (h : SlotsOf hole xs s) (c : α) :
    SlotsOf hole (xs.map fun x => if x = c then hole else x) (s.erase c) where
  mem_iff x := by
    rw [Finset.mem_erase, h.mem_iff, List.mem_map]
    constructor
    · rintro ⟨hne, hx, hx'⟩
      exact ⟨⟨x, hx, if_neg hne⟩, hx'⟩
    · rintro ⟨⟨y, hy, heq⟩, hx⟩
      by_cases hyc : y = c
      · rw [if_pos hyc] at heq
        exact absurd heq.symm hx
      · rw [if_neg hyc] at heq
        exact heq ▸ ⟨hyc, hy, heq ▸ hx⟩
  nodup := by
    have hfilter : (xs.map fun x => if x = c then hole else x).filter (· ≠ hole) =
        (xs.filter (· ≠ hole)).filter (· ≠ c) := by
      clear h
      induction xs with
      | nil => rfl
      | cons x xs ih =>
        by_cases hxc : x = c
        · rw [List.map_cons, if_pos hxc, List.filter_cons_of_neg (by simp), ih]
          by_cases hx : x = hole
          · rw [List.filter_cons_of_neg (by simpa using hx)]
          · rw [List.filter_cons_of_pos (by simpa using hx), List.filter_cons_of_neg (by simpa using hxc)]
        · rw [List.map_cons, if_neg hxc]
          by_cases hx : x = hole
          · rw [List.filter_cons_of_neg (by simpa using hx), List.filter_cons_of_neg (by simpa using hx), ih]
          · rw [List.filter_cons_of_pos (by simpa using hx), List.filter_cons_of_pos (by simpa using hx),
              List.filter_cons_of_pos (by simpa using hxc), ih]
    rw [hfilter]
    exact h.nodup.filter _

end SlotsOf

end Lib
end VialQmk
