import Mathlib.Data.List.Basic
import Mathlib.Data.List.Nodup

/-!
# Lib.Trie

Tries of nested dictionaries. A node has a value, or none, and its children in the order in which they came in.

* `lookup_insert`: a trie is a map from words to values.
* `search` follows a word to the first value on its way (`search_eq_some_iff`).
* `All` holds of every node of what was inserted into an empty trie (`All.insert`).
-/

namespace VialQmk
namespace Lib

inductive Trie (α β : Type) where
  | node (value : Option β) (children : List (α × Trie α β))

namespace Trie

variable {α β : Type}

def empty : Trie α β := .node none []

def value : Trie α β → Option β
  | .node value _ => value

def children : Trie α β → List (α × Trie α β)
  | .node _ children => children

def letters (t : Trie α β) : List α := t.children.map Prod.fst

section

variable [DecidableEq α]

def childOf (c : α) : List (α × Trie α β) → Option (Trie α β)
  | [] => none
  | (c', t) :: rest => if c' = c then some t else childOf c rest

def updateChild (c : α) (f : Trie α β → Trie α β) : List (α × Trie α β) → List (α × Trie α β)
  | [] => [(c, f empty)]
  | (c', t) :: rest => if c' = c then (c', f t) :: rest else (c', t) :: updateChild c f rest

def insert : List α → β → Trie α β → Trie α β
  | [], v, .node _ children => .node (some v) children
  | c :: word, v, .node value children => .node value (updateChild c (insert word v) children)

def lookup : Trie α β → List α → Option β
  | t, [] => t.value
  | t, c :: word =>
    match childOf c t.children with
    | none => none
    | some t' => t'.lookup word

def search : Trie α β → List α → Option β
  | t, [] => t.value
  | t, c :: word =>
    match t.value with
    | some v => some v
    | none =>
      match childOf c t.children with
      | none => none
      | some t' => t'.search word

theorem lookup_empty (word : List α) : (empty : Trie α β).lookup word = none := by
  cases word <;> rfl

theorem childOf_updateChild (c c' : α) (f : Trie α β → Trie α β) (children : List (α × Trie α β)) :
    childOf c' (updateChild c f children) =
      if c' = c then some (f ((childOf c children).getD empty)) else childOf c' children := by
  induction children with
  | nil =>
    by_cases h : c' = c
    · simp [updateChild, childOf, h]
    · simp [updateChild, childOf, h, Ne.symm h]
  | cons p children ih =>
    obtain ⟨a, t⟩ := p
    by_cases ha : a = c
    · subst ha
      by_cases h : c' = a
      · simp [updateChild, childOf, h]
      · simp [updateChild, childOf, h, Ne.symm h]
    · by_cases h : a = c'
      · subst h
        simp [updateChild, childOf, ha]
      · simp [updateChild, childOf, ha, h, ih]

theorem lookup_insert (word : List α) (v : β) : ∀ (t : Trie α β) (word' : List α),
    (t.insert word v).lookup word' = if word' = word then some v else t.lookup word' := by
  induction word with
  | nil =>
    intro t word'
    obtain ⟨value, children⟩ := t
    cases word' with
    | nil => rfl
    | cons c word' => simp [insert, lookup, Trie.children]
  | cons c word ih =>
    intro t word'
    obtain ⟨value, children⟩ := t
    cases word' with
    | nil => simp [insert, lookup, Trie.value]
    | cons c' word' =>
      simp only [insert, lookup, Trie.children, childOf_updateChild]
      by_cases hc : c' = c
      · subst hc
        simp only [↓reduceIte, List.cons.injEq, true_and, ih]
        cases childOf c' children with
        | none => simp [lookup_empty]
        | some t' => simp
      · simp [hc]

theorem search_eq_some_iff {v : β} : ∀ {word : List α} {t : Trie α β}, t.search word = some v ↔
    ∃ p, p <+: word ∧ t.lookup p = some v ∧ ∀ q, q <+: p → q ≠ p → t.lookup q = none := by
  intro word
  induction word with
  | nil =>
    intro t
    constructor
    · intro h
      refine ⟨[], List.prefix_refl _, h, fun q hq hne => absurd (List.prefix_nil.mp hq) hne⟩
    · rintro ⟨p, hp, hv, -⟩
      rw [List.prefix_nil.mp hp] at hv
      exact hv
  | cons c word ih =>
    intro t
    rw [search]
    cases hvalue : t.value with
    | some v' =>
      constructor
      · intro h
        cases h
        exact ⟨[], List.nil_prefix, hvalue, fun q hq hne => absurd (List.prefix_nil.mp hq) hne⟩
      · rintro ⟨p, -, hv, hshort⟩
        by_cases hp : p = []
        · rw [hp] at hv
          exact hvalue.symm.trans hv
        · have hnone := hshort [] List.nil_prefix (Ne.symm hp)
          rw [lookup, hvalue] at hnone
          cases hnone
    | none =>
      have hlookup : ∀ p, t.lookup (c :: p) = (childOf c t.children).bind fun t' => t'.lookup p := by
        intro p
        rw [lookup]
        cases childOf c t.children <;> rfl
      constructor
      · intro h
        cases hchild : childOf c t.children with
        | none =>
          rw [hchild] at h
          cases h
        | some t' =>
          rw [hchild] at h
          obtain ⟨p, hp, hv, hshort⟩ := ih.mp h
          refine ⟨c :: p, List.cons_prefix_cons.mpr ⟨rfl, hp⟩, ?_, fun q hq hne => ?_⟩
          · rw [hlookup, hchild]
            exact hv
          · cases q with
            | nil => exact hvalue
            | cons a q =>
              obtain ⟨rfl, htail⟩ := List.cons_prefix_cons.mp hq
              rw [hlookup, hchild]
              exact hshort q htail fun heq => hne (heq ▸ rfl)
      · rintro ⟨p, hp, hv, hshort⟩
        cases p with
        | nil =>
          rw [lookup, hvalue] at hv
          cases hv
        | cons a p =>
          obtain ⟨rfl, htail⟩ := List.cons_prefix_cons.mp hp
          rw [hlookup] at hv
          cases hchild : childOf a t.children with
          | none =>
            rw [hchild] at hv
            cases hv
          | some t' =>
            rw [hchild] at hv
            refine ih.mpr ⟨p, htail, hv, fun q hq hne => ?_⟩
            have hnone := hshort (a :: q) (List.cons_prefix_cons.mpr ⟨rfl, hq⟩) fun heq => hne (List.cons.inj heq).2
            rw [hlookup, hchild] at hnone
            exact hnone

theorem mem_of_childOf {c : α} {t : Trie α β} : ∀ {children : List (α × Trie α β)}, childOf c children = some t →
    (c, t) ∈ children := by
  intro children
  induction children with
  | nil => intro h; cases h
  | cons p children ih =>
    intro h
    obtain ⟨c', t'⟩ := p
    rw [childOf] at h
    split at h
    · rename_i heq
      cases h
      rw [heq]
      exact List.mem_cons_self
    · exact List.mem_cons_of_mem _ (ih h)

theorem childOf_eq_none_iff {c : α} {children : List (α × Trie α β)} :
    childOf c children = none ↔ c ∉ children.map Prod.fst := by
  induction children with
  | nil => simp [childOf]
  | cons p children ih =>
    obtain ⟨c', t⟩ := p
    rw [childOf, List.map_cons, List.mem_cons, not_or, ← ih]
    split
    · rename_i heq
      simp [heq]
    · rename_i hne
      simp [Ne.symm hne]

theorem letters_updateChild (c : α) (f : Trie α β → Trie α β) (children : List (α × Trie α β)) :
    (updateChild c f children).map Prod.fst =
      if c ∈ children.map Prod.fst then children.map Prod.fst else children.map Prod.fst ++ [c] := by
  induction children with
  | nil => rfl
  | cons p children ih =>
    obtain ⟨a, t⟩ := p
    rw [updateChild]
    by_cases ha : a = c
    · simp [ha]
    · simp only [ha, ↓reduceIte, List.map_cons, ih, List.mem_cons, Ne.symm ha, false_or]
      split <;> rfl

theorem mem_updateChild {c : α} {f : Trie α β → Trie α β} {p : α × Trie α β} :
    ∀ {children : List (α × Trie α β)}, p ∈ updateChild c f children →
      p ∈ children ∨ p.2 = f empty ∨ ∃ q ∈ children, p.2 = f q.2 := by
  intro children
  induction children with
  | nil =>
    intro h
    rw [updateChild, List.mem_singleton] at h
    exact .inr (.inl (by rw [h]))
  | cons q children ih =>
    intro h
    obtain ⟨a, t⟩ := q
    rw [updateChild] at h
    split at h
    · rcases List.mem_cons.mp h with h | h
      · exact .inr (.inr ⟨(a, t), List.mem_cons_self, by rw [h]⟩)
      · exact .inl (List.mem_cons_of_mem _ h)
    · rcases List.mem_cons.mp h with h | h
      · exact .inl (h ▸ List.mem_cons_self)
      · rcases ih h with h | h | ⟨q, hq, h⟩
        · exact .inl (List.mem_cons_of_mem _ h)
        · exact .inr (.inl h)
        · exact .inr (.inr ⟨q, List.mem_cons_of_mem _ hq, h⟩)

end

/-- The letters of each node differ and are good ones, the values are good ones, and no node is without both. -/
inductive All (okLetter : α → Prop) (okValue : β → Prop) : Trie α β → Prop where
  | node {value : Option β} {children : List (α × Trie α β)} : (children.map Prod.fst).Nodup →
      (∀ p ∈ children, okLetter p.1) → (∀ v, value = some v → okValue v) → (value = none → children ≠ []) →
      (∀ p ∈ children, All okLetter okValue p.2) → All okLetter okValue (.node value children)

structure Rooted (okLetter : α → Prop) (okValue : β → Prop) (t : Trie α β) : Prop where
  nodup : (t.children.map Prod.fst).Nodup
  letters : ∀ p ∈ t.children, okLetter p.1
  value : ∀ v, t.value = some v → okValue v
  below : ∀ p ∈ t.children, All okLetter okValue p.2

section

variable {okLetter : α → Prop} {okValue : β → Prop}

theorem rooted_empty : Rooted okLetter okValue (empty : Trie α β) where
  nodup := List.nodup_nil
  letters := by intro p h; cases h
  value := by intro v h; cases h
  below := by intro p h; cases h

theorem All.rooted {t : Trie α β} (h : All okLetter okValue t) : Rooted okLetter okValue t := by
  cases h with
  | node hnodup hletters hvalue _ hbelow => exact ⟨hnodup, hletters, hvalue, hbelow⟩

variable [DecidableEq α]

theorem Rooted.insert {v : β} (hv : okValue v) {word : List α} (hword : ∀ c ∈ word, okLetter c) :
    ∀ {t : Trie α β}, Rooted okLetter okValue t → All okLetter okValue (t.insert word v) := by
  induction word with
  | nil =>
    intro t h
    obtain ⟨value, children⟩ := t
    refine .node h.nodup h.letters ?_ (fun hnone => by cases hnone) h.below
    intro v' hv'
    cases hv'
    exact hv
  | cons c word ih =>
    intro t h
    obtain ⟨value, children⟩ := t
    have hc := hword c List.mem_cons_self
    have ih := @ih fun c hc => hword c (List.mem_cons_of_mem _ hc)
    have hletters := letters_updateChild c (Trie.insert word v) children
    have hmem : ∀ c', c' ∈ (updateChild c (Trie.insert word v) children).map Prod.fst → okLetter c' := by
      intro c' hc'
      have hold : ∀ c' ∈ children.map Prod.fst, okLetter c' := by
        intro c' hc'
        obtain ⟨p, hp, rfl⟩ := List.mem_map.mp hc'
        exact h.letters p hp
      rw [hletters] at hc'
      split at hc'
      · exact hold c' hc'
      · rcases List.mem_append.mp hc' with hc' | hc'
        · exact hold c' hc'
        · rw [List.mem_singleton.mp hc']
          exact hc
    refine .node ?_ (fun p hp => hmem p.1 (List.mem_map_of_mem hp)) h.value (fun _ hnil => ?_) fun p hp => ?_
    · rw [hletters]
      split
      · exact h.nodup
      · rename_i hnot
        refine List.nodup_append.mpr ⟨h.nodup, List.nodup_singleton c, fun a ha b hb => ?_⟩
        rw [List.mem_singleton.mp hb]
        rintro rfl
        exact hnot ha
    · rw [hnil] at hletters
      split at hletters
      · rename_i hin
        rw [← hletters] at hin
        cases hin
      · simp at hletters
    · rcases mem_updateChild hp with hp | heq | ⟨q, hq, heq⟩
      · exact h.below p hp
      · rw [heq]
        exact ih rooted_empty
      · rw [heq]
        exact ih (h.below q hq).rooted

end

end Trie

end Lib
end VialQmk
