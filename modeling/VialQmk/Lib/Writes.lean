import VialQmk.Lib.Mem

/-!
# Lib.Writes

A sequence of single-cell writes to a memory, so that one can stop after any of them. A `Program` of
blocks and loops is flattened to such a sequence.

* `applyWrites_of_forall_ne`: a cell that no write goes to.
* `applyWrites_blockWrites`, `applyWrites_flatMap`: a block write and a loop as sequences.
* `prefix_cases`: where a sequence in three parts is cut.
-/

namespace VialQmk
namespace Lib

variable {β : Type}

def applyWrites (m : Mem β) (ws : List (Nat × β)) : Mem β :=
  ws.foldl (fun m w => Function.update m w.1 w.2) m

def blockWrites (a : Nat) : List β → List (Nat × β)
  | [] => []
  | b :: bs => (a, b) :: blockWrites (a + 1) bs

@[simp] theorem applyWrites_nil (m : Mem β) : applyWrites m [] = m := rfl

@[simp] theorem applyWrites_cons (m : Mem β) (w : Nat × β) (ws : List (Nat × β)) :
    applyWrites m (w :: ws) = applyWrites (Function.update m w.1 w.2) ws := rfl

theorem applyWrites_append (m : Mem β) (ws vs : List (Nat × β)) :
    applyWrites m (ws ++ vs) = applyWrites (applyWrites m ws) vs := by
  rw [applyWrites, List.foldl_append]
  rfl

theorem applyWrites_of_forall_ne (ws : List (Nat × β)) :
    ∀ (m : Mem β) {x : Nat}, (∀ w ∈ ws, w.1 ≠ x) → applyWrites m ws x = m x := by
  induction ws with
  | nil => exact fun _ _ _ => rfl
  | cons w ws ih =>
    intro m x h
    obtain ⟨hw, hws⟩ := List.forall_mem_cons.mp h
    rw [applyWrites_cons, ih _ hws, Function.update_of_ne hw.symm]

theorem applyWrites_blockWrites (bs : List β) :
    ∀ (m : Mem β) (a : Nat), applyWrites m (blockWrites a bs) = m.writeBlock a bs := by
  induction bs with
  | nil => exact fun _ _ => rfl
  | cons b bs ih => exact fun m a => ih _ _

theorem mem_blockWrites (bs : List β) :
    ∀ {a : Nat} {w : Nat × β}, w ∈ blockWrites a bs → a ≤ w.1 ∧ w.1 < a + bs.length := by
  induction bs with
  | nil =>
    intro a w h
    simp [blockWrites] at h
  | cons b bs ih =>
    intro a w h
    rw [List.length_cons]
    rcases List.mem_cons.mp h with rfl | h
    · omega
    · have hrest := ih h
      omega

theorem applyWrites_flatMap {ι : Type} (round : ι → List (Nat × β)) (ks : List ι) :
    ∀ m : Mem β, applyWrites m (ks.flatMap round) =
      ks.foldl (fun m k => applyWrites m (round k)) m := by
  induction ks with
  | nil => exact fun _ => rfl
  | cons k ks ih =>
    intro m
    rw [List.flatMap_cons, applyWrites_append, ih, List.foldl_cons]

theorem prefix_cases {α : Type} {l a r c : List α} (h : l <+: a ++ (r ++ c)) :
    l <+: a ∨ (∃ s, s <+: r ∧ l = a ++ s) ∨ a ++ r <+: l := by
  rcases Nat.le_total l.length a.length with hle | hle
  · exact .inl (List.prefix_of_prefix_length_le h (List.prefix_append a _) hle)
  · obtain ⟨s, rfl⟩ := List.prefix_of_prefix_length_le (List.prefix_append a _) h hle
    have hs : s <+: r ++ c := (List.prefix_append_right_inj a).mp h
    rcases Nat.le_total s.length r.length with hle' | hle'
    · exact .inr (.inl ⟨s, List.prefix_of_prefix_length_le hs (List.prefix_append r c) hle', rfl⟩)
    · exact .inr (.inr ((List.prefix_append_right_inj a).mpr
        (List.prefix_of_prefix_length_le (List.prefix_append r c) hs hle')))

end Lib
end VialQmk
