import Mathlib.Data.Set.Insert

/-!
# Lib.Explained

A set that is switched on and off element by element, for reasons that come and go. At any time it has the
elements it started with, and every other element has a reason.

* `Explained.eq_base`: without reasons the set is the one it started with.
-/

namespace VialQmk
namespace Lib

universe u

variable {ι : Type u}

structure Explained (base on reasons : Set ι) : Prop where
  kept : base ⊆ on
  caused : ∀ i ∈ on, i ∈ base ∨ i ∈ reasons

namespace Explained

variable {base on on' reasons reasons' : Set ι} {i : ι}

theorem start (base reasons : Set ι) : Explained base base reasons := ⟨subset_rfl, fun _ h => .inl h⟩

theorem mono (h : Explained base on reasons) (hle : reasons ⊆ reasons') : Explained base on reasons' :=
  ⟨h.kept, fun j hj => (h.caused j hj).imp_right (hle ·)⟩

theorem switchOn (h : Explained base on reasons) (hsub : on ⊆ on') (hle : on' ⊆ insert i on)
    (hreason : i ∈ reasons) : Explained base on' reasons := by
  refine ⟨h.kept.trans hsub, ?_⟩
  intro j hj
  rcases hle hj with rfl | hon
  · exact .inr hreason
  · exact h.caused j hon

theorem switchOff (h : Explained base on reasons) (hbase : i ∉ base) :
    Explained base (on \ {i}) (reasons \ {i}) := by
  constructor
  · intro j hj
    refine ⟨h.kept hj, ?_⟩
    rintro rfl
    exact hbase hj
  · rintro j ⟨hj, hne⟩
    exact (h.caused j hj).imp_right fun hr => ⟨hr, hne⟩

theorem lose (h : Explained base on reasons) (hle : reasons ⊆ insert i reasons')
    (hoff : i ∈ on → i ∈ base ∨ i ∈ reasons') : Explained base on reasons' := by
  refine ⟨h.kept, ?_⟩
  intro j hj
  rcases h.caused j hj with hbase | hreason
  · exact .inl hbase
  · rcases hle hreason with rfl | hr
    · exact hoff hj
    · exact .inr hr

theorem eq_base (h : Explained base on reasons) (hempty : ∀ i, i ∉ reasons) : on = base := by
  apply Set.Subset.antisymm
  · intro j hj
    exact (h.caused j hj).resolve_right (hempty j)
  · exact h.kept

end Explained

end Lib
end VialQmk
