import Mathlib.Data.List.Basic

/-!
# Lib.Pages

A list that is read in pages: a page has the first elements above a cursor, and the next cursor is the last of them.

* `page_append`: in an increasing list, what is above the cursor is the page and what is above the next cursor.
-/

namespace VialQmk
namespace Lib

section Pages

variable {α : Type*} [LT α] [DecidableLT α] {ids : List α} {n : Nat} {cursor x : α}

def page (ids : List α) (n : Nat) (cursor : α) : List α := (ids.filter fun id => cursor < id).take n

theorem page_zero (ids : List α) (cursor : α) : page ids 0 cursor = [] := List.take_zero

theorem page_nil (n : Nat) (cursor : α) : page [] n cursor = [] := List.take_nil

theorem page_cons_of_lt (h : cursor < x) (ids : List α) (n : Nat) :
    page (x :: ids) (n + 1) cursor = x :: page ids n cursor := by
  rw [page, List.filter_cons_of_pos (by simpa using h), List.take_succ_cons]
  rfl

theorem page_cons_of_not_lt (h : ¬ cursor < x) (ids : List α) (n : Nat) :
    page (x :: ids) n cursor = page ids n cursor := by
  rw [page, List.filter_cons_of_neg (by simpa using h)]
  rfl

theorem length_page_le (ids : List α) (n : Nat) (cursor : α) : (page ids n cursor).length ≤ n :=
  List.length_take_le n _

theorem page_eq_of_lt (h : (page ids n cursor).length < n) : page ids n cursor = ids.filter fun id => cursor < id := by
  rw [page, List.length_take] at h
  exact List.take_of_length_le (by omega)

theorem mem_of_mem_page (h : x ∈ page ids n cursor) : x ∈ ids ∧ cursor < x := by
  have hmem := List.mem_of_mem_take h
  rw [List.mem_filter] at hmem
  exact ⟨hmem.1, of_decide_eq_true hmem.2⟩

section Order

variable [LE α] [Std.IsLinearOrder α] [Std.LawfulOrderLT α]

theorem filter_split {front back : List α} (h : (front ++ x :: back).Pairwise (· < ·)) :
    (front ++ x :: back).filter (fun id => x < id) = back := by
  rw [List.pairwise_append] at h
  obtain ⟨-, hback, hacross⟩ := h
  have hfront : front.filter (fun id => x < id) = [] := by
    rw [List.filter_eq_nil_iff]
    intro id hid
    exact fun hlt => Std.lt_irrefl (Std.lt_trans (of_decide_eq_true hlt) (hacross id hid x List.mem_cons_self))
  have hall : back.filter (fun id => x < id) = back := by
    rw [List.filter_eq_self]
    intro id hid
    simpa using (List.pairwise_cons.mp hback).1 id hid
  rw [List.filter_append, hfront, List.filter_cons_of_neg (by simpa using Std.lt_irrefl), hall, List.nil_append]

/-- Above the greater of two cursors there is the same, whether or not the other one has been applied before. -/
theorem filter_filter_of_lt (h : cursor < x) (ids : List α) :
    (ids.filter fun id => cursor < id).filter (fun id => x < id) = ids.filter fun id => x < id := by
  rw [List.filter_filter]
  apply List.filter_congr
  intro id _
  by_cases hid : x < id
  · simp [hid, Std.lt_trans h hid]
  · simp [hid]

theorem page_append (h : ids.Pairwise (· < ·)) (hlast : (page ids n cursor).getLast? = some x) :
    ids.filter (fun id => cursor < id) = page ids n cursor ++ ids.filter fun id => x < id := by
  have hlt := (mem_of_mem_page (List.mem_of_getLast? hlast)).2
  obtain ⟨front, hfront⟩ := List.getLast?_eq_some_iff.mp hlast
  have hsplit : ids.filter (fun id => cursor < id) =
      front ++ x :: (ids.filter fun id => cursor < id).drop n := by
    rw [List.append_cons, ← hfront, page, List.take_append_drop]
  have hsorted := h.filter (fun id => cursor < id)
  rw [hsplit] at hsorted
  have hrest := filter_split hsorted
  rw [← hsplit, filter_filter_of_lt hlt] at hrest
  rw [hrest, page, List.take_append_drop]

end Order

end Pages

end Lib
end VialQmk
