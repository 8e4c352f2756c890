import Mathlib.Tactic.Common

/-!
# Lib.Counting

Loops with a counter whose passes may fail, and divisions of numbers that are not negative.

* `forRange_rule`: if every pass goes well from what the last one leaves, so does the loop.
* `divide`, `remainder`: no value where the divisor is 0.
-/

namespace VialQmk
namespace Lib

universe u

variable {σ : Type u}

def forRange : Nat → (Nat → σ → Option σ) → σ → Option σ
  | 0, _, s => some s
  | n + 1, pass, s => (forRange n pass s).bind (pass n)

theorem forRange_rule {n : Nat} {pass : Nat → σ → Option σ} {s : σ} (inv : Nat → σ → Prop) (hstart : inv 0 s)
    (hpass : ∀ i < n, ∀ t, inv i t → ∃ t', pass i t = some t' ∧ inv (i + 1) t') :
    ∃ t, forRange n pass s = some t ∧ inv n t := by
  induction n with
  | zero => exact ⟨s, rfl, hstart⟩
  | succ n ih =>
    obtain ⟨t, ht, hinv⟩ := ih fun i hi => hpass i (by omega)
    obtain ⟨t', ht', hinv'⟩ := hpass n (Nat.lt_succ_self n) t hinv
    exact ⟨t', by rw [forRange, ht, Option.bind_some, ht'], hinv'⟩

def divide (n d : Nat) : Option Nat := if d = 0 then none else some (n / d)

def remainder (n d : Nat) : Option Nat := if d = 0 then none else some (n % d)

theorem divide_of_pos {d : Nat} (h : 0 < d) (n : Nat) : divide n d = some (n / d) := if_neg (Nat.ne_of_gt h)

theorem remainder_of_pos {d : Nat} (h : 0 < d) (n : Nat) : remainder n d = some (n % d) := if_neg (Nat.ne_of_gt h)

end Lib
end VialQmk
