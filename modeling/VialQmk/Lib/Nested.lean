import Mathlib.Tactic.Common

/-!
# Lib.Nested

Procedures on a state that call each other again before they return.

* `tie`: a body over its own calls, tied up to a depth; `tie_keeps` is its rule.
* `Keeps R f`: when `f` returns, `R` relates the state before to the state behind.
* `Unless bad log R`: the log of the state only grows, and `R` is owed unless something bad is written to it.
-/

namespace VialQmk
namespace Lib

universe u v w

variable {ι : Type u} {σ : Type v} {ε : Type w}

abbrev Call (ι : Type u) (σ : Type v) := ι → σ → Option σ

def tie (body : Call ι σ → Call ι σ) : Nat → Call ι σ
  | 0 => fun _ _ => none
  | depth + 1 => body (tie body depth)

def Keeps (R : σ → σ → Prop) (f : σ → Option σ) : Prop := ∀ ⦃s s'⦄, f s = some s' → R s s'

theorem tie_keeps {body : Call ι σ → Call ι σ} {R : ι → σ → σ → Prop}
    (h : ∀ call : Call ι σ, (∀ i, Keeps (R i) (call i)) → ∀ i, Keeps (R i) (body call i)) (depth : Nat) :
    ∀ i, Keeps (R i) (tie body depth i) := by
  induction depth with
  | zero => exact fun _ _ _ hs => nomatch hs
  | succ depth ih => exact h _ ih

namespace Keeps

variable {R : σ → σ → Prop} {f g : σ → Option σ} {s s' : σ}

theorem bind (htrans : ∀ {a b c}, R a b → R b c → R a c) {f : Option σ} (hf : ∀ s', f = some s' → R s s')
    (hg : ∀ s', R s s' → Keeps R g) (h : f.bind g = some s') : R s s' := by
  obtain ⟨t, ht, hts⟩ := Option.bind_eq_some_iff.mp h
  exact htrans (hf t ht) (hg t (hf t ht) hts)

theorem foldlM (hrefl : ∀ s, R s s) (htrans : ∀ {a b c}, R a b → R b c → R a c) {α : Type u} {f : σ → α → Option σ}
    (hf : ∀ a, Keeps R (f · a)) (l : List α) : Keeps R (l.foldlM f ·) := by
  induction l with
  | nil =>
    intro s s' h
    rw [← Option.some.inj h]
    exact hrefl s
  | cons a l ih =>
    intro s s' h
    obtain ⟨t, ht, hts⟩ := Option.bind_eq_some_iff.mp h
    exact htrans (hf a ht) (ih hts)

end Keeps

section Unless

variable {bad : ε → Prop} {log : σ → List ε} {R : σ → σ → Prop} {a b c : σ}

def Unless (bad : ε → Prop) (log : σ → List ε) (R : σ → σ → Prop) (s s' : σ) : Prop :=
  ∃ new, log s' = log s ++ new ∧ ((∀ e ∈ new, ¬ bad e) → R s s')

namespace Unless

theorem of_same (hlog : log b = log a) (h : R a b) : Unless bad log R a b :=
  ⟨[], by rw [hlog, List.append_nil], fun _ => h⟩

theorem of_write {e : ε} (hlog : log b = log a ++ [e]) (h : ¬ bad e → R a b) : Unless bad log R a b :=
  ⟨[e], hlog, fun hnew => h (hnew e List.mem_cons_self)⟩

variable {R' : σ → σ → Prop}

theorem comp {S : σ → σ → Prop} (h : Unless bad log R a b) (h' : Unless bad log R' b c)
    (himp : R a b → R' b c → S a c) : Unless bad log S a c := by
  obtain ⟨new, hlog, hr⟩ := h
  obtain ⟨new', hlog', hr'⟩ := h'
  refine ⟨new ++ new', by rw [hlog', hlog, List.append_assoc], fun hnew => ?_⟩
  exact himp (hr fun e he => hnew e (List.mem_append_left _ he)) (hr' fun e he => hnew e (List.mem_append_right _ he))

theorem trans (htrans : ∀ {a b c}, R a b → R b c → R a c) (h : Unless bad log R a b) (h' : Unless bad log R b c) :
    Unless bad log R a c :=
  h.comp h' htrans

theorem mono (h : Unless bad log R a b) (himp : R a b → R' a b) : Unless bad log R' a b := by
  obtain ⟨new, hlog, hr⟩ := h
  exact ⟨new, hlog, fun hnew => himp (hr hnew)⟩

theorem within {d : σ} (hlog : log b = log a) (hlog' : log d = log c) (h : Unless bad log R b c)
    (himp : R b c → R' a d) : Unless bad log R' a d := by
  obtain ⟨new, hnew, hr⟩ := h
  exact ⟨new, by rw [hlog', hnew, hlog], fun hn => himp (hr hn)⟩

theorem of_clean (h : Unless bad log R a b) (hclean : ∀ e ∈ log b, ¬ bad e) : R a b := by
  obtain ⟨new, hlog, hr⟩ := h
  exact hr fun e he => hclean e (by rw [hlog]; exact List.mem_append_right _ he)

end Unless
end Unless

end Lib
end VialQmk
