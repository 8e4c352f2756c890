import Mathlib.Tactic.Common

/-!
# Lib.Guarded

Computations that can fail, with the exact condition of their success.

* `Guarded P x s a s'`: from `s` the computation returns `a` in `s'` when `P` holds, and fails when it does not.
* `Guarded.bind`: a sequence succeeds when both parts do.
-/

namespace VialQmk
namespace Lib

universe u

variable {ε σ α β : Type u}

structure Guarded (P : Prop) (x : EStateM ε σ α) (s : σ) (a : α) (s' : σ) : Prop where
  ok : P → x s = .ok a s'
  error : ¬ P → ∃ e s'', x s = .error e s''

namespace Guarded

variable {P Q : Prop} {x : EStateM ε σ α} {f : α → EStateM ε σ β} {s s' s'' : σ} {a : α} {b : β}

theorem of_ok (h : x s = .ok a s') : Guarded True x s a s' := ⟨fun _ => h, fun hn => absurd trivial hn⟩

theorem pure (a : α) (s : σ) : Guarded True (Pure.pure a : EStateM ε σ α) s a s := of_ok rfl

theorem bind (hx : Guarded P x s a s') (hf : P → Guarded Q (f a) s' b s'') : Guarded (P ∧ Q) (x >>= f) s b s'' := by
  constructor
  · rintro ⟨hp, hq⟩
    show EStateM.bind x f s = _
    rw [EStateM.bind, hx.ok hp]
    exact (hf hp).ok hq
  · intro hn
    show ∃ e t, EStateM.bind x f s = _
    rw [EStateM.bind]
    by_cases hp : P
    · rw [hx.ok hp]
      exact (hf hp).error fun hq => hn ⟨hp, hq⟩
    · obtain ⟨e, t, h⟩ := hx.error hp
      exact ⟨e, t, by rw [h]⟩

theorem congr (hx : Guarded P x s a s') (h : P ↔ Q) : Guarded Q x s a s' :=
  ⟨fun hq => hx.ok (h.mpr hq), fun hn => hx.error fun hp => hn (h.mp hp)⟩

theorem step (hx : x s = .ok a s') (hf : Guarded Q (f a) s' b s'') : Guarded Q (x >>= f) s b s'' :=
  ((of_ok hx).bind fun _ => hf).congr (and_iff_right trivial)

theorem of_result (hx : Guarded P x s a s') {c : α} {t : σ} (h : x s = .ok c t) : P := by
  by_contra hn
  obtain ⟨e, u, he⟩ := hx.error hn
  rw [h] at he
  exact nomatch he

end Guarded
end Lib
end VialQmk
