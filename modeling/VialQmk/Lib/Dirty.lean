import Mathlib.Logic.Function.Basic
import Mathlib.Tactic.Common

/-!
# Lib.Dirty

A record that is copied to a second party, with a dirty mark for every part of it. The owner marks the parts
that it changes; a message carries the whole record with its marks and replaces the message before it; the
second party takes over the marked parts.

* `Tracks`: a change of the record that marks every part it changes.
* `InStep`: what is not marked is the same in the owner's record, the message and the second party's record.
* `InStep.settled`: when nothing is marked, the second party has the record last acknowledged.
* `ShownIn`: where the parts are sent one by one, a part without a mark is the one that was sent last.
-/

namespace VialQmk
namespace Lib

universe u v w

structure Dirty (σ : Type u) (ι : Type v) (β : ι → Type w) where
  value : σ → (i : ι) → β i
  marked : σ → ι → Bool

/-- The owner's record, the last message delivered, the second party's record, and the record last acknowledged. -/
structure Link (σ : Type u) where
  owner : σ
  wire : σ
  other : σ
  sent : Option σ

namespace Dirty

variable {σ : Type u} {ι : Type v} {β : ι → Type w} (D : Dirty σ ι β)

def AgreeOff (marks : ι → Bool) (s t : σ) : Prop := ∀ i, marks i = false → D.value s i = D.value t i

def Clean (s : σ) : Prop := ∀ i, D.marked s i = false

def Covers (s t : σ) : Prop := ∀ i, D.marked s i = true → D.marked t i = true

/-- Marks are only set, and every part that changes is marked. -/
structure Tracks (s t : σ) : Prop where
  covers : D.Covers s t
  agree : D.AgreeOff (D.marked t) s t

variable {D} {marks marks' : ι → Bool} {s t r : σ}

theorem AgreeOff.refl (s : σ) : D.AgreeOff marks s s := fun _ _ => rfl

theorem AgreeOff.symm (h : D.AgreeOff marks s t) : D.AgreeOff marks t s := fun i hi => (h i hi).symm

theorem AgreeOff.trans (h : D.AgreeOff marks s t) (h' : D.AgreeOff marks t r) : D.AgreeOff marks s r :=
  fun i hi => (h i hi).trans (h' i hi)

theorem AgreeOff.mono (h : D.AgreeOff marks s t) (hle : ∀ i, marks i = true → marks' i = true) :
    D.AgreeOff marks' s t := by
  intro i hi
  refine h i ?_
  cases hm : marks i with
  | false => rfl
  | true => rw [hle i hm] at hi; exact nomatch hi

theorem AgreeOff.value_eq (h : D.AgreeOff marks s t) (hclean : ∀ i, marks i = false) : D.value s = D.value t :=
  funext fun i => h i (hclean i)

theorem Tracks.refl (s : σ) : D.Tracks s s := ⟨fun _ hi => hi, AgreeOff.refl s⟩

theorem Tracks.trans (h : D.Tracks s t) (h' : D.Tracks t r) : D.Tracks s r :=
  ⟨fun i hi => h'.covers i (h.covers i hi), (h.agree.mono h'.covers).trans h'.agree⟩

variable (D) in
/-- Before the first delivery the second party's record stands for the message. -/
structure Unsent (l : Link σ) : Prop where
  wire : D.Clean l.wire
  changed : D.AgreeOff (D.marked l.owner) l.other l.owner
  marked : ∃ i, D.marked l.owner i = true
  sent : l.sent = none

variable (D) in
structure Synced (l : Link σ) : Prop where
  pending : D.AgreeOff (D.marked l.wire) l.wire l.other
  changed : D.AgreeOff (D.marked l.owner) l.wire l.owner
  acked : ∀ v, l.sent = some v → D.AgreeOff (D.marked l.owner) l.wire v
  marked : l.sent = none → ∃ i, D.marked l.owner i = true

variable (D) in
def InStep (l : Link σ) : Prop := D.Unsent l ∨ D.Synced l

variable {l : Link σ}

theorem InStep.change (h : D.InStep l) {owner : σ} (ht : D.Tracks l.owner owner) :
    D.InStep { l with owner := owner } := by
  rcases h with h | h
  · obtain ⟨i, hi⟩ := h.marked
    exact .inl ⟨h.wire, (h.changed.mono ht.covers).trans ht.agree, ⟨i, ht.covers i hi⟩, h.sent⟩
  · refine .inr ⟨h.pending, (h.changed.mono ht.covers).trans ht.agree, ?_, ?_⟩
    · intro v hv
      exact (h.acked v hv).mono ht.covers
    · intro hn
      obtain ⟨i, hi⟩ := h.marked hn
      exact ⟨i, ht.covers i hi⟩

variable (D) in
/-- What the second party still has to take over is marked again, or is no news to it. -/
def Keeps (l : Link σ) : Prop :=
  ∀ i, D.marked l.wire i = true → D.marked l.owner i = true ∨ D.value l.owner i = D.value l.other i

theorem Synced.owner_other (h : D.Synced l) (hkeeps : D.Keeps l) :
    D.AgreeOff (D.marked l.owner) l.owner l.other := by
  intro i hi
  cases hwire : D.marked l.wire i with
  | false => exact (h.changed i hi).symm.trans (h.pending i hwire)
  | true =>
    rcases hkeeps i hwire with hmarked | hsame
    · rw [hi] at hmarked
      exact nomatch hmarked
    · exact hsame

theorem InStep.deliver (h : D.InStep l) (hkeeps : D.Keeps l) : D.InStep { l with wire := l.owner } := by
  rcases h with h | h
  · refine .inr ⟨h.changed.symm, AgreeOff.refl _, ?_, fun _ => h.marked⟩
    intro v hv
    rw [h.sent] at hv
    exact nomatch hv
  · refine .inr ⟨h.owner_other hkeeps, AgreeOff.refl _, ?_, h.marked⟩
    intro v hv
    exact h.changed.symm.trans (h.acked v hv)

theorem InStep.acknowledge (h : D.InStep l) (hkeeps : D.Keeps l) {cleared : σ}
    (hvalue : D.value cleared = D.value l.owner) :
    D.InStep { l with wire := l.owner, owner := cleared, sent := some l.owner } := by
  have hsame : D.AgreeOff (D.marked cleared) l.owner cleared := fun i _ => (congrFun hvalue i).symm
  have hpending : D.AgreeOff (D.marked l.owner) l.owner l.other := by
    rcases h with h | h
    · exact h.changed.symm
    · exact h.owner_other hkeeps
  refine .inr ⟨hpending, hsame, ?_, fun hn => nomatch hn⟩
  intro v hv
  cases hv
  exact AgreeOff.refl _

theorem InStep.apply (h : D.InStep l) {wire other : σ} (hvalue : D.value wire = D.value l.wire)
    (hclean : D.Clean wire) (hidle : D.Clean l.wire → D.value other = D.value l.other)
    (htake : D.AgreeOff (D.marked l.wire) l.wire l.other → D.value other = D.value l.wire) :
    D.InStep { l with wire := wire, other := other } := by
  rcases h with h | h
  · refine .inl ⟨hclean, ?_, h.marked, h.sent⟩
    intro i hi
    rw [hidle h.wire]
    exact h.changed i hi
  · refine .inr ⟨?_, ?_, ?_, h.marked⟩
    · intro i _
      rw [htake h.pending, hvalue]
    · intro i hi
      rw [hvalue]
      exact h.changed i hi
    · intro v hv i hi
      rw [hvalue]
      exact h.acked v hv i hi

theorem InStep.settled (h : D.InStep l) (howner : D.Clean l.owner) (hwire : D.Clean l.wire) :
    ∃ v, l.sent = some v ∧ D.value l.other = D.value v := by
  have hmarked : ¬ ∃ i, D.marked l.owner i = true := by
    rintro ⟨i, hi⟩
    rw [howner i] at hi
    exact nomatch hi
  rcases h with h | h
  · exact absurd h.marked hmarked
  · cases hsent : l.sent with
    | none => exact absurd (h.marked hsent) hmarked
    | some v => exact ⟨v, rfl, (h.pending.value_eq hwire).symm.trans ((h.acked v hsent).value_eq howner)⟩

variable (D) in
def ShownIn (s : σ) (sent : (i : ι) → Option (β i)) : Prop := ∀ i, D.marked s i = false → sent i = some (D.value s i)

variable {sent : (i : ι) → Option (β i)}

theorem ShownIn.change (h : D.ShownIn s sent) (ht : D.Tracks s t) : D.ShownIn t sent := by
  intro i hi
  have hs : D.marked s i = false := by
    cases hm : D.marked s i with
    | false => rfl
    | true => rw [ht.covers i hm] at hi; exact nomatch hi
  rw [h i hs, ht.agree i hi]

theorem ShownIn.send [DecidableEq ι] (h : D.ShownIn s sent) (k : ι) (hvalue : D.value t = D.value s)
    (hkeep : ∀ i, i ≠ k → D.marked t i = D.marked s i) :
    D.ShownIn t (Function.update sent k (some (D.value s k))) := by
  intro i hi
  by_cases hk : i = k
  · subst hk
    rw [Function.update_self, hvalue]
  · rw [Function.update_of_ne hk, hvalue]
    exact h i (hkeep i hk ▸ hi)

variable {sent' : (i : ι) → Option (β i)}

theorem ShownIn.resend (h : D.ShownIn s sent) (hsent : ∀ i, sent' i = sent i ∨ sent' i = some (D.value s i)) :
    D.ShownIn s sent' := by
  intro i hi
  rcases hsent i with heq | heq
  · rw [heq, h i hi]
  · exact heq

theorem ShownIn.all_sent (h : D.ShownIn s sent) (hmarked : ∀ i, D.marked s i = true → sent i = some (D.value s i))
    (i : ι) : sent i = some (D.value s i) := by
  cases hi : D.marked s i with
  | false => exact h i hi
  | true => exact hmarked i hi

end Dirty

end Lib
end VialQmk
