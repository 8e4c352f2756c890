import VialQmk.Lib.Mem
import Mathlib.Data.List.Dedup
import Mathlib.Data.List.DropRight

/-!
# Lib.Recent

Keys in the order of their last use, as many as there is room for.

* `InOrder`: the keys are pairwise different, and in the order in which they were used last.
* `InOrder.use`: so they are after one more use, which puts its key on top and drops the oldest one.
* `rtake_filter`: the last entries of a list of which the oldest leave first.
* `readBlock_shift`: an array from which one cell has been taken out, as a list.
-/

namespace VialQmk
namespace Lib

section Recent

variable {κ : Type*} [DecidableEq κ]

/-- The keys of the list, each where it was used last in the log. -/
def InOrder (keys log : List κ) : Prop := keys.Sublist log.dedup

/-- A use of the key: it goes to the top, and the oldest keys go if there are too many. -/
def useKey (room : Nat) (k : κ) (keys : List κ) : List κ :=
  let used := keys.filter (· ≠ k) ++ [k]
  used.drop (used.length - room)

theorem dedup_concat (log : List κ) (k : κ) : (log ++ [k]).dedup = log.dedup.filter (· ≠ k) ++ [k] := by
  induction log with
  | nil => simp
  | cons c log ih =>
    rw [List.cons_append]
    by_cases hmem : c ∈ log
    · have hmem' : c ∈ log ++ [k] := List.mem_append_left _ hmem
      rw [List.dedup_cons_of_mem hmem, List.dedup_cons_of_mem hmem', ih]
    · rw [List.dedup_cons_of_notMem hmem]
      by_cases hk : c = k
      · have hmem' : c ∈ log ++ [k] := by simp [hk]
        rw [List.dedup_cons_of_mem hmem', ih]
        simp [hk]
      · have hmem' : c ∉ log ++ [k] := by simp [hmem, hk]
        rw [List.dedup_cons_of_notMem hmem', ih]
        simp [hk]

namespace InOrder

variable {keys keys' log : List κ} {k : κ}

theorem nil (log : List κ) : InOrder [] log := List.nil_sublist _

theorem nodup (h : InOrder keys log) : keys.Nodup := List.Nodup.sublist h (List.nodup_dedup log)

theorem sublist (h : InOrder keys log) (hs : keys'.Sublist keys) : InOrder keys' log := List.Sublist.trans hs h

theorem use (h : InOrder keys log) (room : Nat) (k : κ) : InOrder (useKey room k keys) (log ++ [k]) := by
  rw [InOrder, dedup_concat]
  refine (List.drop_sublist _ _).trans ?_
  exact (h.filter _).append (List.Sublist.refl _)

end InOrder

theorem mem_useKey {room : Nat} {k c : κ} {keys : List κ} (h : c ∈ useKey room k keys) : c ∈ keys ∨ c = k := by
  have hmem := List.mem_of_mem_drop h
  rw [List.mem_append, List.mem_filter, List.mem_singleton] at hmem
  exact hmem.imp And.left id

theorem useKey_of_mem {room i : Nat} {keys : List κ} (hnodup : keys.Nodup) (hroom : keys.length ≤ room)
    (hi : i < keys.length) : useKey room keys[i] keys = keys.eraseIdx i ++ [keys[i]] := by
  have hfilter : keys.filter (· ≠ keys[i]) = keys.eraseIdx i := by
    rw [← hnodup.erase_getElem i hi, hnodup.erase_eq_filter]
    apply List.filter_congr
    intro k _
    by_cases hk : k = keys[i] <;> simp [hk]
  have hlength : (keys.eraseIdx i ++ [keys[i]]).length - room = 0 := by
    simp only [List.length_append, List.length_eraseIdx_of_lt hi, List.length_singleton]
    omega
  simp only [useKey, hfilter, hlength, List.drop_zero]

theorem useKey_top {room i : Nat} {keys : List κ} (hnodup : keys.Nodup) (hroom : keys.length ≤ room)
    (hi : i < keys.length) (htop : keys.length = i + 1) : useKey room keys[i] keys = keys := by
  have hdrop : keys.drop (i + 1) = [] := by rw [← htop, List.drop_length]
  rw [useKey_of_mem hnodup hroom hi, List.eraseIdx_eq_take_drop_succ, hdrop, List.append_nil,
    List.take_append_getElem hi, ← htop, List.take_length]

theorem useKey_of_notMem {room : Nat} {keys : List κ} {k : κ} (hk : k ∉ keys) :
    useKey room k keys = (keys ++ [k]).drop (keys.length + 1 - room) := by
  have hfilter : keys.filter (· ≠ k) = keys := by
    rw [List.filter_eq_self]
    intro c hc
    exact decide_eq_true fun heq => hk (heq ▸ hc)
  simp only [useKey, hfilter, List.length_append, List.length_singleton]

end Recent

section Last

variable {α : Type*}

theorem rtake_of_le {xs : List α} {n : Nat} (h : xs.length ≤ n) : xs.rtake n = xs := by
  rw [List.rtake, Nat.sub_eq_zero_of_le h, List.drop_zero]

theorem length_rtake (xs : List α) (n : Nat) : (xs.rtake n).length = min xs.length n := by
  rw [List.rtake, List.length_drop]
  omega

theorem rtake_append_of_le {xs ys : List α} {n : Nat} (h : ys.length ≤ n) :
    (xs ++ ys).rtake n = xs.rtake (n - ys.length) ++ ys := by
  rw [List.rtake, List.rtake, List.length_append, List.drop_append]
  have hxs : xs.length + ys.length - n = xs.length - (n - ys.length) := by omega
  have hys : xs.length + ys.length - n - xs.length = 0 := by omega
  rw [hys, hxs, List.drop_zero]

theorem rtake_rtake {xs : List α} {m n : Nat} (h : m ≤ n) : (xs.rtake n).rtake m = xs.rtake m := by
  rw [List.rtake, length_rtake, List.rtake, List.rtake, List.drop_drop]
  congr 1
  omega

/-- Where an entry stays if an earlier one does, the last entries that stay are the last entries, as far as they
stay. -/
theorem rtake_filter {p : α → Bool} {xs : List α} (h : xs.Pairwise fun x y => p x = true → p y = true) (n : Nat) :
    (xs.filter p).rtake n = (xs.rtake n).filter p := by
  have hsplit : xs.take (xs.length - n) ++ xs.rtake n = xs := List.take_append_drop _ _
  by_cases hle : xs.length ≤ n
  · rw [rtake_of_le hle, rtake_of_le ((List.length_filter_le p xs).trans hle)]
  · have hlength : (xs.rtake n).length = n := by
      rw [length_rtake]
      omega
    by_cases hall : ∀ x ∈ xs.rtake n, p x = true
    · have hkept : (xs.rtake n).filter p = xs.rtake n := List.filter_eq_self.mpr hall
      conv_lhs => rw [← hsplit]
      rw [List.filter_append, hkept, rtake_append_of_le (Nat.le_of_eq hlength), hlength, Nat.sub_self, List.rtake_zero,
        List.nil_append]
    · push Not at hall
      obtain ⟨y, hy, hgone⟩ := hall
      have hnone : (xs.take (xs.length - n)).filter p = [] := by
        rw [List.filter_eq_nil_iff]
        intro x hx hpx
        rw [← hsplit, List.pairwise_append] at h
        exact hgone (h.2.2 x hx y hy hpx)
      conv_lhs => rw [← hsplit]
      rw [List.filter_append, hnone, List.nil_append]
      exact rtake_of_le ((List.length_filter_le _ _).trans (Nat.le_of_eq hlength))

end Last

theorem readBlock_shift {β : Type*} {m m' : Mem β} {i n : Nat} (hi : i ≤ n)
    (h : ∀ x, x < n → m' x = if x < i then m x else m (x + 1)) :
    m'.readBlock 0 n = (m.readBlock 0 (n + 1)).eraseIdx i := by
  have hlength : ((m.readBlock 0 (n + 1)).eraseIdx i).length = n := by
    rw [List.length_eraseIdx_of_lt (by simpa using Nat.lt_succ_of_le hi), Mem.readBlock_length]
    rfl
  apply List.ext_getElem (by rw [hlength, Mem.readBlock_length])
  intro x hx _
  have hxn : x < n := by simpa using hx
  rw [Mem.readBlock_getElem, List.getElem_eraseIdx]
  simp only [Mem.readBlock_getElem, Nat.zero_add]
  rw [h x hxn]
  split <;> rfl

end Lib
end VialQmk
