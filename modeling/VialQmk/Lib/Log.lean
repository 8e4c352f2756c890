import VialQmk.Lib.Mem

/-!
# Lib.Log

An append-only log in a memory, read back record by record. A `LogReader` decodes one record at an
address and applies it to a state; `Plays` is the replay of a stretch of the log.

* A replay depends on its own stretch of memory only (`Plays.congr`).
* It is deterministic: a longer replay runs through the end of a shorter one (`Plays.split`).
-/

namespace VialQmk
namespace Lib

variable {β σ : Type}

structure LogReader (β σ : Type) where
  /-- The record at an address: where the next one starts, and the state with the record applied. -/
  step : Mem β → Nat → σ → Option (Nat × σ)
  step_lt : ∀ {m a c b d}, step m a c = some (b, d) → a < b
  step_local : ∀ {m m' a c b d}, step m a c = some (b, d) →
    (∀ x, a ≤ x → x < b → m' x = m x) → step m' a c = some (b, d)

namespace LogReader

/-- The records from `a` up to `b` take the state `c` to `d`. -/
inductive Plays (r : LogReader β σ) (m : Mem β) : Nat → σ → Nat → σ → Prop where
  | nil (a : Nat) (c : σ) : Plays r m a c a c
  | cons {a b e : Nat} {c d f : σ} :
      r.step m a c = some (b, d) → Plays r m b d e f → Plays r m a c e f

namespace Plays

variable {r : LogReader β σ} {m m' : Mem β} {a b e : Nat} {c d f : σ}

theorem le (h : Plays r m a c b d) : a ≤ b := by
  induction h with
  | nil => exact Nat.le_refl _
  | cons hs _ ih => exact Nat.le_trans (Nat.le_of_lt (r.step_lt hs)) ih

theorem trans (h : Plays r m a c b d) (h' : Plays r m b d e f) : Plays r m a c e f := by
  induction h with
  | nil => exact h'
  | cons hs _ ih => exact .cons hs (ih h')

theorem snoc (h : Plays r m a c b d) (hs : r.step m b d = some (e, f)) : Plays r m a c e f :=
  h.trans (.cons hs (.nil e f))

theorem congr (h : Plays r m a c b d) (hm : ∀ x, a ≤ x → x < b → m' x = m x) :
    Plays r m' a c b d := by
  induction h with
  | nil => exact .nil _ _
  | cons hs ht ih =>
    have hlt := r.step_lt hs
    have hle := ht.le
    refine .cons (r.step_local hs fun x hx hx' => hm x hx (by omega)) (ih fun x hx hx' => ?_)
    exact hm x (by omega) hx'

theorem split (h : Plays r m a c b d) (h' : Plays r m a c e f) (hle : b ≤ e) :
    Plays r m b d e f := by
  induction h with
  | nil => exact h'
  | cons hs ht ih =>
    have hlt := r.step_lt hs
    cases h' with
    | nil =>
      have := ht.le
      omega
    | cons hs' ht' =>
      rw [hs] at hs'
      cases hs'
      exact ih ht' hle

theorem unique (h : Plays r m a c b d) (h' : Plays r m a c b f) : d = f := by
  cases h.split h' (Nat.le_refl _) with
  | nil => rfl
  | cons hs ht =>
    have := r.step_lt hs
    have := ht.le
    omega

end Plays
end LogReader
end Lib
end VialQmk
