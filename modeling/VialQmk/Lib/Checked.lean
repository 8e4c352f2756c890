import Mathlib.Logic.Basic
import Mathlib.Algebra.Group.Nat.Defs
import Mathlib.Tactic.Common

/-!
# Lib.Checked

Arithmetic of C on numbers that are not negative, with the exact value told from a cut one.

* `Checked`: a computation that is undefined, or has a value and says if nothing has been cut on the way.
* `Exact`: it has this value, and nothing has been cut. One rule for each construct.
-/

namespace VialQmk
namespace Lib

/-- The flag is false from the first value on that did not fit its type. -/
inductive Checked (α : Type) where
  | undefined
  | value (a : α) (exact : Bool)
  deriving DecidableEq

namespace Checked

variable {α β : Type}

def bind (x : Checked α) (f : α → Checked β) : Checked β :=
  match x with
  | undefined => undefined
  | value a exact =>
    match f a with
    | undefined => undefined
    | value b exact' => value b (exact && exact')

instance : Monad Checked where
  pure a := value a true
  bind := bind

def cast (w n : Nat) : Checked Nat := value (n % 2 ^ w) (decide (n < 2 ^ w))

/-- A result of type `int`, which has 32 bits; it is undefined beyond. -/
def int (n : Nat) : Checked Nat := if n < 2 ^ 31 then value n true else undefined

def div (n d : Nat) : Checked Nat := if d = 0 then undefined else value (n / d) true

def value? : Checked α → Option α
  | undefined => none
  | value a _ => some a

def Exact (x : Checked α) (a : α) : Prop := x = value a true

theorem exact_pure {a b : α} : Exact (pure a) b ↔ a = b := by
  constructor
  · rintro ⟨⟩
    rfl
  · rintro rfl
    rfl

theorem exact_bind {x : Checked α} {f : α → Checked β} {b : β} :
    Exact (x >>= f) b ↔ ∃ a, Exact x a ∧ Exact (f a) b := by
  constructor
  · intro h
    cases x with
    | undefined => exact nomatch h
    | value a exact =>
      have hbind : (match f a with
        | undefined => undefined
        | value b exact' => value b (exact && exact')) = value b true := h
      cases hf : f a with
      | undefined => rw [hf] at hbind; exact nomatch hbind
      | value b' exact' =>
        rw [hf] at hbind
        obtain ⟨rfl, hflag⟩ := Checked.value.inj hbind
        obtain ⟨rfl, rfl⟩ := Bool.and_eq_true_iff.mp hflag
        exact ⟨a, rfl, hf⟩
  · rintro ⟨a, rfl, hf⟩
    show bind (value a true) f = _
    rw [bind, hf]
    rfl

theorem exact_cast {w n m : Nat} : Exact (cast w n) m ↔ n < 2 ^ w ∧ n = m := by
  rw [Exact, cast, value.injEq, decide_eq_true_eq, and_comm]
  exact and_congr_right fun hlt => by rw [Nat.mod_eq_of_lt hlt]

theorem exact_int {n m : Nat} : Exact (int n) m ↔ n < 2 ^ 31 ∧ n = m := by
  rw [Exact, int]
  by_cases h : n < 2 ^ 31
  · rw [if_pos h, value.injEq, and_iff_left rfl, and_iff_right h]
  · rw [if_neg h]
    exact ⟨nofun, fun heq => absurd heq.1 h⟩

theorem exact_cast_bind {w n : Nat} {f : Nat → Checked β} {b : β} :
    Exact (cast w n >>= f) b ↔ n < 2 ^ w ∧ Exact (f n) b := by
  rw [exact_bind]
  constructor
  · rintro ⟨m, hm, hf⟩
    obtain ⟨hlt, rfl⟩ := exact_cast.mp hm
    exact ⟨hlt, hf⟩
  · rintro ⟨hlt, hf⟩
    exact ⟨n, exact_cast.mpr ⟨hlt, rfl⟩, hf⟩

theorem exact_int_bind {n : Nat} {f : Nat → Checked β} {b : β} :
    Exact (int n >>= f) b ↔ n < 2 ^ 31 ∧ Exact (f n) b := by
  rw [exact_bind]
  constructor
  · rintro ⟨m, hm, hf⟩
    obtain ⟨hlt, rfl⟩ := exact_int.mp hm
    exact ⟨hlt, hf⟩
  · rintro ⟨hlt, hf⟩
    exact ⟨n, exact_int.mpr ⟨hlt, rfl⟩, hf⟩

theorem exact_div {n d m : Nat} : Exact (div n d) m ↔ d ≠ 0 ∧ n / d = m := by
  rw [Exact, div]
  by_cases h : d = 0
  · rw [if_pos h]
    exact ⟨nofun, fun heq => absurd h heq.1⟩
  · rw [if_neg h, value.injEq, and_iff_left rfl, and_iff_right h]

end Checked

end Lib
end VialQmk
