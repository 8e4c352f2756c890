import Mathlib.Data.List.Basic
import Mathlib.Logic.Function.Basic
import Mathlib.Tactic.SplitIfs

/-!
# Lib.Ring

A queue in a circular buffer of `cap` cells: items are added at `head` and taken at `tail`, and the buffer
is full when one more item would make the two meet. `contents` is the queue as a list.
-/

namespace VialQmk
namespace Lib

structure Ring (α : Type) (cap : Nat) where
  cells : Nat → α
  head : Nat
  tail : Nat
  head_lt : head < cap
  tail_lt : tail < cap

namespace Ring

variable {α : Type} {cap : Nat}

def next (cap i : Nat) : Nat := (i + 1) % cap

theorem next_lt {i : Nat} (h : i < cap) : next cap i < cap := Nat.mod_lt _ (by omega)

theorem next_eq {i : Nat} (h : i < cap) : next cap i = if i + 1 = cap then 0 else i + 1 := by
  rw [next]
  split
  · rename_i heq
    rw [heq, Nat.mod_self]
  · exact Nat.mod_eq_of_lt (by omega)

variable (r : Ring α cap)

def isFull : Bool := r.tail == next cap r.head

def isEmpty : Bool := r.head == r.tail

def push (a : α) : Ring α cap :=
  { r with
    cells := Function.update r.cells r.head a
    head := next cap r.head
    head_lt := next_lt r.head_lt }

def front : α := r.cells r.tail

def pop : Ring α cap := { r with tail := next cap r.tail, tail_lt := next_lt r.tail_lt }

def clear : Ring α cap := { r with tail := r.head, tail_lt := r.head_lt }

def size : Nat := if r.tail ≤ r.head then r.head - r.tail else r.head + cap - r.tail

def index (k : Nat) : Nat := if r.tail + k < cap then r.tail + k else r.tail + k - cap

def contents : List α := (List.range r.size).map fun k => r.cells (r.index k)

theorem size_lt : r.size < cap := by
  have hhead := r.head_lt
  have htail := r.tail_lt
  rw [size]
  split <;> omega

@[simp]
theorem length_contents : r.contents.length = r.size := by simp [contents]

theorem contents_eq_nil (h : r.isEmpty = true) : r.contents = [] := by
  have heq : r.head = r.tail := by simpa [isEmpty] using h
  have hsize : r.size = 0 := by
    rw [size]
    split <;> omega
  rw [contents, hsize]
  rfl

@[simp]
theorem contents_clear : r.clear.contents = [] := contents_eq_nil _ (by simp [clear, isEmpty])

theorem contents_push (a : α) (h : r.isFull = false) : (r.push a).contents = r.contents ++ [a] := by
  have hhead := r.head_lt
  have htail := r.tail_lt
  have hne : r.tail ≠ next cap r.head := by simpa [isFull] using h
  have hsize : (r.push a).size = r.size + 1 := by
    rw [next_eq hhead] at hne
    simp only [size, push, next_eq hhead]
    split_ifs at hne ⊢ <;> omega
  have hlast : r.index r.size = r.head := by
    rw [index, size]
    split_ifs <;> omega
  rw [contents, hsize, List.range_succ, List.map_append, contents]
  congr 1
  · refine List.map_congr_left fun k hk => ?_
    have hk : k < r.size := List.mem_range.mp hk
    have hcell : r.index k ≠ r.head := by
      rw [size] at hk
      rw [index]
      split_ifs at hk ⊢ <;> omega
    exact Function.update_of_ne hcell _ _
  · have hcell : (r.push a).index r.size = r.head := hlast
    rw [List.map_singleton, hcell]
    exact congrArg (fun x => [x]) (Function.update_self _ _ _)

theorem contents_pop (h : r.isEmpty = false) : r.contents = r.front :: r.pop.contents := by
  have hhead := r.head_lt
  have htail := r.tail_lt
  have hne : r.head ≠ r.tail := by simpa [isEmpty] using h
  have hsize : r.size = r.pop.size + 1 := by
    simp only [size, pop, next_eq htail]
    split_ifs <;> omega
  rw [contents, hsize, List.range_succ_eq_map, List.map_cons, List.map_map, contents]
  congr 1
  · rw [index, if_pos (by omega)]
    rfl
  · refine List.map_congr_left fun k hk => ?_
    have hk : k < r.pop.size := List.mem_range.mp hk
    have hlt := r.pop.size_lt
    have hcell : r.index (k + 1) = r.pop.index k := by
      simp only [index, pop, next_eq htail]
      split_ifs <;> omega
    rw [Function.comp_apply, hcell]
    rfl

end Ring

end Lib
end VialQmk
