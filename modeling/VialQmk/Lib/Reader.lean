import Mathlib.Data.List.Basic

/-!
# Lib.Reader

A reader is a function that takes an item out of a state.

* `YieldsTo read s as s'`: reading from `s` gives the items `as` one after another and leaves `s'`.
* `YieldsWhile read more s as s'`: and there was `more` to read each time.
* `readWhile read more fuel s`: all items as long as there is more to read.
-/

namespace VialQmk
namespace Lib

section

variable {σ α : Type} {read : σ → α × σ}

def YieldsTo (read : σ → α × σ) : σ → List α → σ → Prop
  | s, [], s' => s = s'
  | s, a :: as, s' => (read s).1 = a ∧ YieldsTo read (read s).2 as s'

@[simp]
theorem yieldsTo_nil {s s' : σ} : YieldsTo read s [] s' ↔ s = s' := Iff.rfl

variable {as : List α}

@[simp]
theorem yieldsTo_cons {s s' : σ} {a : α} :
    YieldsTo read s (a :: as) s' ↔ (read s).1 = a ∧ YieldsTo read (read s).2 as s' := Iff.rfl

theorem YieldsTo.append {s s₁ s₂ : σ} {bs : List α} (h : YieldsTo read s as s₁) (h' : YieldsTo read s₁ bs s₂) :
    YieldsTo read s (as ++ bs) s₂ := by
  induction as generalizing s with
  | nil =>
    cases h
    exact h'
  | cons a as ih => exact ⟨h.1, ih h.2⟩

variable {more : σ → Prop}

def YieldsWhile (read : σ → α × σ) (more : σ → Prop) : σ → List α → σ → Prop
  | s, [], s' => s = s'
  | s, a :: as, s' => more s ∧ (read s).1 = a ∧ YieldsWhile read more (read s).2 as s'

theorem YieldsWhile.yieldsTo {s s' : σ} (h : YieldsWhile read more s as s') : YieldsTo read s as s' := by
  induction as generalizing s with
  | nil => exact h
  | cons a as ih => exact ⟨h.2.1, ih h.2.2⟩

theorem YieldsWhile.append {s s₁ s₂ : σ} {bs : List α} (h : YieldsWhile read more s as s₁)
    (h' : YieldsWhile read more s₁ bs s₂) : YieldsWhile read more s (as ++ bs) s₂ := by
  induction as generalizing s with
  | nil =>
    cases h
    exact h'
  | cons a as ih => exact ⟨h.1, h.2.1, ih h.2.2⟩

theorem YieldsWhile.flatMap {β : Type} {ready : σ → List β → Prop} {enc : β → List α}
    (hpart : ∀ s b bs, ready s (b :: bs) → ∃ s', YieldsWhile read more s (enc b) s' ∧ ready s' bs) :
    ∀ {bs : List β} {s : σ}, ready s bs → ∃ s', YieldsWhile read more s (bs.flatMap enc) s' ∧ ready s' [] := by
  intro bs
  induction bs with
  | nil => exact fun {s} h => ⟨s, rfl, h⟩
  | cons b bs ih =>
    intro s h
    obtain ⟨s₁, hb, hready⟩ := hpart s b bs h
    obtain ⟨s₂, hbs, hend⟩ := ih hready
    exact ⟨s₂, hb.append hbs, hend⟩

def readWhile (read : σ → α × σ) (more : σ → Prop) [DecidablePred more] : Nat → σ → Option (List α)
  | 0, s => if more s then none else some []
  | fuel + 1, s => if more s then (readWhile read more fuel (read s).2).map ((read s).1 :: ·) else some []

theorem readWhile_of_yields [DecidablePred more] {s s' : σ} (h : YieldsWhile read more s as s') (hend : ¬ more s') :
    readWhile read more as.length s = some as := by
  induction as generalizing s with
  | nil =>
    cases h
    exact if_neg hend
  | cons a as ih =>
    obtain ⟨hmore, ha, hrest⟩ := h
    rw [List.length_cons, readWhile, if_pos hmore, ih hrest, ha]
    rfl

end

end Lib
end VialQmk
