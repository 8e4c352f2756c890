import Mathlib.Logic.Function.Basic
import Mathlib.Data.List.GetD
import Mathlib.Tactic.Common

/-!
# Lib.Mem

Addressed memories, blocks of cells, and typed fields laid over them.

* `writeBlock`, `readBlock`: consecutive cells, with the frame lemmas a layout proof needs.
* `Codec`: a fixed-size encoding of a type as a block; it carries its own round trip.
* `Field`: a codec at an address. A field that is written reads back (`Field.get_set`), and two
  fields that do not overlap do not see each other (`Field.get_set_of_disjoint`).
-/

namespace VialQmk
namespace Lib

abbrev Mem (β : Type*) := Nat → β

namespace Mem

variable {β : Type*}

/-- Writes the cells of the list at consecutive addresses, starting at `a`. -/
def writeBlock (m : Mem β) (a : Nat) : List β → Mem β
  | [] => m
  | b :: bs => writeBlock (Function.update m a b) (a + 1) bs

def readBlock (m : Mem β) (a : Nat) : Nat → List β
  | 0 => []
  | n + 1 => m a :: readBlock m (a + 1) n

theorem writeBlock_of_lt (bs : List β) :
    ∀ (m : Mem β) (a : Nat) {x : Nat}, x < a → writeBlock m a bs x = m x := by
  induction bs with
  | nil => intro m a x _; rfl
  | cons b bs ih =>
    intro m a x hx
    rw [writeBlock, ih _ _ (by omega), Function.update_of_ne (by omega)]

theorem writeBlock_apply (bs : List β) :
    ∀ (m : Mem β) (a x : Nat),
      writeBlock m a bs x = if a ≤ x then bs.getD (x - a) (m x) else m x := by
  induction bs with
  | nil => intro m a x; simp [writeBlock]
  | cons b bs ih =>
    intro m a x
    by_cases h : a ≤ x
    · obtain ⟨d, rfl⟩ := Nat.exists_eq_add_of_le h
      cases d with
      | zero =>
        rw [writeBlock, writeBlock_of_lt bs _ _ (by omega)]
        simp
      | succ d =>
        rw [writeBlock, ih, if_pos (by omega), if_pos h, Function.update_of_ne (by omega),
          show a + (d + 1) - (a + 1) = d by omega, show a + (d + 1) - a = d + 1 by omega,
          List.getD_cons_succ]
    · rw [writeBlock, writeBlock_of_lt bs _ _ (by omega), if_neg h,
        Function.update_of_ne (by omega)]

variable {m : Mem β} {a : Nat}

theorem writeBlock_of_ge {bs : List β} {x : Nat} (h : a + bs.length ≤ x) : writeBlock m a bs x = m x := by
  rw [writeBlock_apply, if_pos (by omega), List.getD_eq_default _ _ (by omega)]

theorem writeBlock_of_mem {bs : List β} {i : Nat} (h : i < bs.length) : writeBlock m a bs (a + i) = bs[i] := by
  rw [writeBlock_apply, if_pos (by omega), Nat.add_sub_cancel_left, List.getD_eq_getElem _ _ h]

theorem writeBlock_append (bs cs : List β) :
    ∀ (m : Mem β) (a : Nat),
      writeBlock m a (bs ++ cs) = writeBlock (writeBlock m a bs) (a + bs.length) cs := by
  induction bs with
  | nil => intro m a; rfl
  | cons b bs ih =>
    intro m a
    rw [List.cons_append, writeBlock, ih, writeBlock, List.length_cons,
      show a + 1 + bs.length = a + (bs.length + 1) by omega]

@[simp] theorem readBlock_length (m : Mem β) : ∀ (n a : Nat), (readBlock m a n).length = n := by
  intro n
  induction n with
  | zero => intro a; rfl
  | succ n ih => intro a; simp [readBlock, ih]

theorem readBlock_getElem (m : Mem β) :
    ∀ (n a i : Nat) (h : i < (readBlock m a n).length), (readBlock m a n)[i] = m (a + i) := by
  intro n
  induction n with
  | zero => intro a i h; simp [readBlock] at h
  | succ n ih =>
    intro a i h
    cases i with
    | zero => rfl
    | succ i =>
      simp only [readBlock, List.getElem_cons_succ]
      rw [ih, show a + 1 + i = a + (i + 1) by omega]

theorem readBlock_append (m : Mem β) (k : Nat) :
    ∀ n a : Nat, readBlock m a (n + k) = readBlock m a n ++ readBlock m (a + n) k := by
  intro n
  induction n with
  | zero => intro a; simp [readBlock]
  | succ n ih =>
    intro a
    rw [Nat.add_right_comm, readBlock, ih, readBlock, List.cons_append, Nat.add_right_comm a 1 n,
      Nat.add_assoc a n 1]

theorem readBlock_succ (m : Mem β) (a n : Nat) : readBlock m a (n + 1) = readBlock m a n ++ [m (a + n)] := by
  rw [readBlock_append]
  rfl

theorem mem_readBlock {n : Nat} {b : β} : b ∈ readBlock m a n ↔ ∃ i, i < n ∧ m (a + i) = b := by
  rw [List.mem_iff_getElem]
  constructor
  · rintro ⟨i, hi, rfl⟩
    exact ⟨i, by simpa using hi, (readBlock_getElem m n a i hi).symm⟩
  · rintro ⟨i, hi, rfl⟩
    exact ⟨i, by simpa using hi, readBlock_getElem m n a i (by simpa using hi)⟩

theorem readBlock_congr {m' : Mem β} {b n : Nat} (h : ∀ i, i < n → m (a + i) = m' (b + i)) :
    readBlock m a n = readBlock m' b n := by
  apply List.ext_getElem (by simp)
  intro i h₁ _
  rw [readBlock_getElem, readBlock_getElem]
  exact h i (by simpa using h₁)

theorem readBlock_inj {m' : Mem β} {b n : Nat} (h : readBlock m a n = readBlock m' b n) :
    ∀ i, i < n → m (a + i) = m' (b + i) := by
  intro i hi
  have hget := congrArg (·[i]?) h
  simpa [List.getElem?_eq_getElem, hi, readBlock_getElem] using hget

theorem readBlock_writeBlock (m : Mem β) (a : Nat) (bs : List β) :
    readBlock (writeBlock m a bs) a bs.length = bs := by
  apply List.ext_getElem (by simp)
  intro i _ h₂
  rw [readBlock_getElem, writeBlock_of_mem h₂]

theorem readBlock_writeBlock_of_disjoint {b n : Nat} {bs : List β} (h : b + n ≤ a ∨ a + bs.length ≤ b) :
    readBlock (writeBlock m a bs) b n = readBlock m b n := by
  apply readBlock_congr
  intro i hi
  rcases h with h | h
  · exact writeBlock_of_lt bs m a (by omega)
  · exact writeBlock_of_ge (by omega)

theorem writeBlock_readBlock (m : Mem β) (a n : Nat) : writeBlock m a (readBlock m a n) = m := by
  funext x
  rw [writeBlock_apply]
  split
  · by_cases hx : x - a < n
    · rw [List.getD_eq_getElem _ _ (by simpa using hx), readBlock_getElem,
        show a + (x - a) = x by omega]
    · rw [List.getD_eq_default _ _ (by simpa using hx)]
  · rfl

end Mem

/-- A fixed-size encoding of `α` as `size` cells, with its round trip. -/
structure Codec (β α : Type*) where
  size : Nat
  enc : α → List β
  dec : List β → α
  enc_length : ∀ v, (enc v).length = size
  dec_enc : ∀ v, dec (enc v) = v

structure Field (β α : Type*) where
  addr : Nat
  codec : Codec β α

namespace Field

variable {β α γ : Type*}

def get (f : Field β α) (m : Mem β) : α := f.codec.dec (m.readBlock f.addr f.codec.size)

def set (f : Field β α) (m : Mem β) (v : α) : Mem β := m.writeBlock f.addr (f.codec.enc v)

def Disjoint (f : Field β α) (g : Field β γ) : Prop :=
  f.addr + f.codec.size ≤ g.addr ∨ g.addr + g.codec.size ≤ f.addr

@[simp] theorem get_set (f : Field β α) (m : Mem β) (v : α) : f.get (f.set m v) = v := by
  have h := m.readBlock_writeBlock f.addr (f.codec.enc v)
  rw [f.codec.enc_length] at h
  rw [get, set, h, f.codec.dec_enc]

theorem get_set_of_disjoint {f : Field β α} {g : Field β γ} (h : f.Disjoint g) (m : Mem β) (v : α) :
    g.get (f.set m v) = g.get m := by
  rw [get, set, Mem.readBlock_writeBlock_of_disjoint]
  · rfl
  · rw [f.codec.enc_length]; exact h.symm

end Field
end Lib
end VialQmk
