import VialQmk.Autocorrect.Format

/-!
# Autocorrect.Table

What the generator makes.

* The table that `serializeTrie` makes encodes the trie (`encodes_serializeTrie`).
* A typo of the dictionary is found in its trie exactly at the end of a word (`search_makeTrie`).
* The bound on the recursion does not matter (`traverse_isSome`).
-/

namespace VialQmk
namespace Autocorrect

open Lib

variable {table : List TableEntry}

variable {autocorrections : List Autocorrection} {data : List Nat} (f : Nat → Nat) {pre post : List TableEntry}

theorem length_serializeBranch (g : Nat → Nat) (links : List (Char × Nat)) : ∀ {data data' : List Nat},
    data.length = data'.length →
      (serializeBranch f data links).length = (serializeBranch g data' links).length := by
  induction links with
  | nil =>
    intro data data' h
    rw [serializeBranch, serializeBranch, List.length_append, List.length_append, h]
  | cons p links ih =>
    intro data data' h
    rw [serializeBranch, serializeBranch]
    refine ih ?_
    simp [h, encodeLink]

theorem length_serialize (g : Nat → Nat) (e : TableEntry) : (serialize f e).length = (serialize g e).length := by
  rw [serialize, serialize]
  split
  · rfl
  · rfl
  · exact length_serializeBranch f g _ rfl

theorem byteOffset_succ {e : TableEntry} (h : table = pre ++ e :: post) (f : Nat → Nat) :
    byteOffset table (pre.length + 1) = byteOffset table pre.length + (serialize f e).length := by
  have htake : table.take (pre.length + 1) = pre ++ [e] := by
    rw [h, show pre ++ e :: post = (pre ++ [e]) ++ post by simp]
    exact List.take_left' (by simp)
  have htake' : table.take pre.length = pre := by
    rw [h]
    exact List.take_left' rfl
  rw [byteOffset, byteOffset, htake, htake', List.flatMap_append, List.length_append, length_serialize f fun _ => 0]
  simp

theorem length_flatMap_serialize (entries : List TableEntry) :
    (entries.flatMap (serialize f)).length = (entries.flatMap (serialize fun _ => 0)).length := by
  induction entries with
  | nil => rfl
  | cons e entries ih =>
    rw [List.flatMap_cons, List.length_append, ih, List.flatMap_cons, List.length_append, length_serialize f fun _ => 0]

theorem serialize_at {e : TableEntry} (h : table = pre ++ e :: post) (f : Nat → Nat) :
    serialize f e <+: (table.flatMap (serialize f)).drop (byteOffset table pre.length) := by
  have hoff : byteOffset table pre.length = (pre.flatMap (serialize f)).length := by
    rw [length_flatMap_serialize, byteOffset, h, List.take_left' rfl]
  rw [hoff, h, List.flatMap_append, List.drop_left, List.flatMap_cons]
  exact List.prefix_append _ _

theorem serializeBranch_of_ne_nil : ∀ {links : List (Char × Nat)} {data : List Nat}, data ≠ [] →
    serializeBranch f data links = data ++ (links.map fun p => (p.1, f p.2)).flatMap linkBytes ++ [0] := by
  intro links
  induction links with
  | nil => intro data _; simp [serializeBranch]
  | cons p links ih =>
    intro data hne
    obtain ⟨c, link⟩ := p
    rw [serializeBranch, if_neg hne, ih (by simp)]
    simp [linkBytes]

theorem serializeBranch_nil {links : List (Char × Nat)} (hne : links ≠ []) :
    serializeBranch f [] links = branchBytes (links.map fun p => (p.1, f p.2)) := by
  obtain ⟨⟨c, link⟩, links, rfl⟩ := List.exists_cons_of_ne_nil hne
  rw [serializeBranch, serializeBranch_of_ne_nil f (by simp)]
  simp [branchBytes]

theorem serialize_branch {chars : List Char} {links : List Nat} (h : 2 ≤ links.length)
    (hlen : links.length = chars.length) :
    serialize f ⟨chars, [], links⟩ = branchBytes ((chars.zip links).map fun p => (p.1, f p.2)) := by
  match links, chars, h, hlen with
  | a :: b :: links, c :: d :: chars, _, _ => exact serializeBranch_nil f (by simp)

theorem traverseAll_spec {τ : Type} {f : τ → Nat → Option (List TableEntry)} :
    ∀ {ts : List τ} {base : Nat} {links : List Nat} {entries pre : List TableEntry},
      traverseAll f ts base = some (links, entries) → table = pre ++ entries ++ post → pre.length = base →
        links.length = ts.length ∧ ∀ p ∈ ts.zip links, ∃ pre' sub post', f p.1 p.2 = some sub ∧
          table = pre' ++ sub ++ post' ∧ pre'.length = p.2 := by
  intro ts
  induction ts with
  | nil =>
    intro base links entries pre h _ _
    cases h
    exact ⟨rfl, fun p hp => by cases hp⟩
  | cons t ts ih =>
    intro base links entries pre h htable hbase
    rw [traverseAll] at h
    cases hsub : f t base with
    | none => simp [hsub] at h
    | some sub =>
      cases hrest : traverseAll f ts (base + sub.length) with
      | none => simp [hsub, hrest] at h
      | some result =>
        obtain ⟨links', rest⟩ := result
        simp only [hsub, hrest, Option.bind_eq_bind, Option.bind_some, Option.some.injEq, Prod.mk.injEq] at h
        obtain ⟨rfl, rfl⟩ := h
        have htable' : table = (pre ++ sub) ++ rest ++ post := by simp [htable]
        obtain ⟨hlen, hall⟩ := ih hrest htable' (by simp [hbase])
        refine ⟨by simp [hlen], fun p hp => ?_⟩
        rcases List.mem_cons.mp hp with rfl | hp
        · exact ⟨pre, sub, rest ++ post, hsub, by simp [htable], hbase⟩
        · exact hall p hp

theorem encodes_chain : ∀ {n : Nat} {t t' : Trie Char Autocorrection} {chars chars' : List Char},
    chain n t chars = (chars', t') → Trie.All (fun c => isTypoChar c = true) (fun _ => True) t →
      ∃ more, chars' = chars ++ more ∧ Trie.All (fun c => isTypoChar c = true) (fun _ => True) t' ∧
        ∀ {off : Nat} {c : Char}, isTypoChar c = true →
          typoCode c :: (more.map typoCode ++ [0]) <+: data.drop off → Encodes data (off + more.length + 2) t' →
            Encodes data off (.node none [(c, t)]) := by
  have hstop : ∀ {t t' : Trie Char Autocorrection} {chars chars' : List Char}, (chars, t) = (chars', t') →
      Trie.All (fun c => isTypoChar c = true) (fun _ => True) t →
      ∃ more, chars' = chars ++ more ∧ Trie.All (fun c => isTypoChar c = true) (fun _ => True) t' ∧
        ∀ {off : Nat} {c : Char}, isTypoChar c = true →
          typoCode c :: (more.map typoCode ++ [0]) <+: data.drop off → Encodes data (off + more.length + 2) t' →
            Encodes data off (.node none [(c, t)]) := by
    rintro t _ chars _ ⟨⟩ hall
    refine ⟨[], (List.append_nil chars).symm, hall, fun hc hprefix hbelow => ?_⟩
    exact .last hc (getElem?_of_prefix_drop hprefix (i := 0) (by simp))
      (getElem?_of_prefix_drop hprefix (i := 1) (by simp)) hbelow
  intro n
  induction n with
  | zero =>
    intro t t' chars chars' h hall
    exact hstop h hall
  | succ n ih =>
    intro t t' chars chars' h hall
    match t, h, hall with
    | .node (some e) children, h, hall => exact hstop h hall
    | .node none [], h, hall => exact hstop h hall
    | .node none (p :: q :: children), h, hall => exact hstop h hall
    | .node none [(c₁, t₁)], h, hall =>
      cases hall with
      | node _ hletters _ _ hbelow =>
        have hc₁ := hletters (c₁, t₁) List.mem_cons_self
        obtain ⟨more, rfl, hall', hencodes⟩ := ih h (hbelow (c₁, t₁) List.mem_cons_self)
        refine ⟨c₁ :: more, by simp, hall', fun {off c} hc hprefix hnode => ?_⟩
        have hnext : typoCode c₁ :: (more.map typoCode ++ [0]) <+: data.drop (off + 1) := by
          obtain ⟨rest, hrest⟩ := hprefix
          refine ⟨rest, ?_⟩
          rw [← List.drop_drop, ← hrest]
          rfl
        refine .more hc (getElem?_of_prefix_drop hprefix (i := 0) (by simp))
          (getElem?_of_prefix_drop hprefix (i := 1) (by simp)) (Nat.ne_of_gt (typoCode_bounds hc₁).1) ?_
        refine hencodes hc₁ hnext ?_
        rwa [List.length_cons, ← Nat.add_assoc, Nat.add_right_comm off] at hnode

theorem mem_sortedLetters {c : Char} {t : Trie Char Autocorrection} : c ∈ sortedLetters t ↔ c ∈ t.letters :=
  (List.perm_insertionSort _ _).mem_iff

theorem traverse_branch (n base : Nat) (p q : Char × Trie Char Autocorrection)
    (children : List (Char × Trie Char Autocorrection)) :
    traverse (n + 1) (.node none (p :: q :: children)) base =
      (traverseAll (fun c base => (Trie.childOf c (p :: q :: children)).bind (traverse n · base))
        (sortedLetters (.node none (p :: q :: children))) (base + 1)).map fun result =>
          ⟨sortedLetters (.node none (p :: q :: children)), [], result.1⟩ :: result.2 := by
  rw [traverse]
  · cases traverseAll (fun c base => (Trie.childOf c (p :: q :: children)).bind (traverse n · base))
      (sortedLetters (.node none (p :: q :: children))) (base + 1) <;> rfl
  · intro h
    cases h
  · intro c t h
    simp at h

theorem encodes_branch {f : Char → Nat → Option (List TableEntry)}
    {children : List (Char × Trie Char Autocorrection)} {links : List Nat} {sub : List TableEntry}
    (hcount : 2 ≤ children.length) (hletters : ∀ p ∈ children, isTypoChar p.1 = true)
    (hsub : traverseAll f (sortedLetters (.node none children)) (pre.length + 1) = some (links, sub))
    (htable : table = pre ++ ⟨sortedLetters (.node none children), [], links⟩ :: (sub ++ post))
    (hbelow : ∀ c base entries pre post t, f c base = some entries → table = pre ++ entries ++ post →
      pre.length = base → Trie.childOf c children = some t →
        Encodes (table.flatMap (serialize (byteOffset table))) (byteOffset table base) t) :
    Encodes (table.flatMap (serialize (byteOffset table))) (byteOffset table pre.length) (.node none children) := by
  have hmem : ∀ c, c ∈ sortedLetters (.node none children) ↔ c ∈ children.map Prod.fst := fun c => mem_sortedLetters
  have hlength : (sortedLetters (.node none children)).length = children.length := by
    rw [sortedLetters, List.length_insertionSort, Trie.letters, List.length_map]
    rfl
  generalize sortedLetters (.node none children) = chars at *
  have htable' : table = (pre ++ [⟨chars, [], links⟩]) ++ sub ++ post := by simpa using htable
  obtain ⟨hlen, hlinks⟩ := traverseAll_spec hsub htable' (by simp)
  have hfst : ((chars.zip links).map fun p => (p.1, byteOffset table p.2)).map Prod.fst = chars := by
    rw [List.map_map]
    exact List.map_fst_zip (Nat.le_of_eq hlen.symm)
  refine @Encodes.branch _ _ _ ((chars.zip links).map fun p => (p.1, byteOffset table p.2)) ?_ ?_ ?_ ?_ ?_
  · intro hnil
    rw [hnil, List.map_nil] at hfst
    rw [← hfst, List.length_nil] at hlength
    omega
  · intro p hp
    have hp : p.1 ∈ chars := hfst ▸ List.mem_map_of_mem hp
    obtain ⟨q, hq, heq⟩ := List.mem_map.mp ((hmem p.1).mp hp)
    exact heq ▸ hletters q hq
  · intro c
    rw [hfst]
    exact hmem c
  · rw [← serialize_branch (byteOffset table) (by omega) hlen]
    exact serialize_at htable _
  · intro c off' t hc hchild
    obtain ⟨p, hp, heq⟩ := List.mem_map.mp hc
    cases heq
    obtain ⟨pre', sub', post', htraverse, hsplit, hlen'⟩ := hlinks p hp
    exact hbelow p.1 p.2 sub' pre' post' t htraverse hsplit hlen' hchild

theorem encodes_traverse : ∀ {n base : Nat} {t : Trie Char Autocorrection} {entries pre post : List TableEntry},
    traverse n t base = some entries → Trie.All (fun c => isTypoChar c = true) (fun _ => True) t →
      table = pre ++ entries ++ post → pre.length = base →
      Encodes (table.flatMap (serialize (byteOffset table))) (byteOffset table base) t := by
  intro n
  induction n with
  | zero =>
    intro base t entries pre post h
    cases h
  | succ n ih =>
    intro base t entries pre post h hall htable hbase
    subst hbase
    match t, h, hall with
    | .node (some e) children, h, _ =>
      rw [traverse] at h
      cases hdata : leafData e with
      | none => simp [hdata] at h
      | some bytes =>
        simp only [hdata, Option.bind_eq_bind, Option.bind_some, Option.some.injEq] at h
        subst h
        exact .leaf hdata (serialize_at (e := ⟨[], bytes, []⟩) (by simpa using htable) _)
    | .node none [], h, _ => cases h
    | .node none [(c, t)], h, .node _ hletters _ _ hbelow =>
      have hc := hletters (c, t) List.mem_cons_self
      rw [traverse] at h
      cases hchain : chain n t [c] with
      | mk chars t' =>
        cases hsub : traverse n t' (pre.length + 1) with
        | none => simp [hchain, hsub] at h
        | some sub =>
          simp only [hchain, hsub, Option.bind_eq_bind, Option.bind_some, Option.some.injEq] at h
          subst h
          obtain ⟨more, rfl, hall', hencodes⟩ := encodes_chain hchain (hbelow (c, t) List.mem_cons_self)
          have hentry : table = pre ++ ⟨[c] ++ more, [], [pre.length + 1]⟩ :: (sub ++ post) := by simpa using htable
          refine hencodes hc (serialize_at hentry _) ?_
          have htable' : table = (pre ++ [⟨[c] ++ more, [], [pre.length + 1]⟩]) ++ sub ++ post := by
            simpa using htable
          have hnode := ih hsub hall' htable' (by simp)
          rw [byteOffset_succ hentry (byteOffset table)] at hnode
          have hsize : (serialize (byteOffset table) ⟨[c] ++ more, [], [pre.length + 1]⟩).length = more.length + 2 := by
            simp [serialize]
          rwa [hsize, ← Nat.add_assoc] at hnode
    | .node none (p :: q :: children), h, .node _ hletters _ _ hbelow =>
      rw [traverse_branch] at h
      obtain ⟨⟨links, sub⟩, hsub, rfl⟩ := Option.map_eq_some_iff.mp h
      have hentry : table =
          pre ++ ⟨sortedLetters (.node none (p :: q :: children)), [], links⟩ :: (sub ++ post) := by
        simpa using htable
      refine encodes_branch (by simp) hletters hsub hentry ?_
      intro c base entries pre post t htraverse hsplit hlen hchild
      rw [hchild, Option.bind_some] at htraverse
      exact ih htraverse (hbelow (c, t) (Trie.mem_of_childOf hchild)) hsplit hlen

/-- What `parse_file` checks of the lines that it keeps. -/
structure Accepted (autocorrections : List Autocorrection) : Prop where
  nodup : (autocorrections.map Autocorrection.typo).Nodup
  chars : ∀ e ∈ autocorrections, ∀ c ∈ e.typo, isTypoChar c = true
  length : ∀ e ∈ autocorrections, e.typo.length ≤ 127
  apart : ∀ e ∈ autocorrections, ∀ e' ∈ autocorrections, e.typo <:+: e'.typo → e = e'

theorem Accepted.append {line : Autocorrection} (h : Accepted autocorrections)
    (hnew : line.typo ∉ autocorrections.map Autocorrection.typo) (hchars : line.typo.all isTypoChar = true)
    (hapart : ¬∃ other ∈ autocorrections, line.typo <:+: other.typo ∨ other.typo <:+: line.typo)
    (hlength : ¬127 < line.typo.length) : Accepted (autocorrections ++ [line]) := by
  have hmem : ∀ {e}, e ∈ autocorrections ++ [line] → e ∈ autocorrections ∨ e = line := by
    intro e he
    simpa using he
  refine ⟨?_, fun e he => ?_, fun e he => ?_, fun e he e' he' hinfix => ?_⟩
  · rw [List.map_append, List.nodup_append]
    refine ⟨h.nodup, List.nodup_singleton _, fun a ha b hb => ?_⟩
    rw [List.map_singleton, List.mem_singleton] at hb
    rintro rfl
    exact hnew (hb ▸ ha)
  · rcases hmem he with he | rfl
    · exact h.chars e he
    · exact List.all_eq_true.mp hchars
  · rcases hmem he with he | rfl
    · exact h.length e he
    · exact Nat.le_of_not_lt hlength
  · rcases hmem he with hold | rfl <;> rcases hmem he' with hold' | rfl
    · exact h.apart e hold e' hold' hinfix
    · exact absurd ⟨e, hold, .inr hinfix⟩ hapart
    · exact absurd ⟨e', hold', .inl hinfix⟩ hapart
    · rfl

theorem accepted_parseLines : ∀ {lines autocorrections result : List Autocorrection}, Accepted autocorrections →
    parseLines autocorrections lines = some result → Accepted result := by
  intro lines
  induction lines with
  | nil =>
    intro autocorrections result h hparse
    cases hparse
    exact h
  | cons line lines ih =>
    intro autocorrections result h hparse
    rw [parseLines] at hparse
    split at hparse
    · exact ih h hparse
    rename_i hnew
    split at hparse
    · cases hparse
    rename_i hchars
    split at hparse
    · cases hparse
    rename_i hapart
    split at hparse
    · cases hparse
    rename_i hlength
    exact ih (h.append hnew (Decidable.not_not.mp hchars) hapart hlength) hparse

theorem accepted_parseFile {lines : List Autocorrection} (h : parseFile lines = some autocorrections) :
    Accepted autocorrections :=
  accepted_parseLines ⟨by simp, by simp, by simp, by simp⟩ h

theorem lookup_foldl {w : List Char} {e : Autocorrection} : ∀ {autocorrections : List Autocorrection}
    {t : Trie Char Autocorrection}, (autocorrections.map Autocorrection.typo).Nodup →
      ((autocorrections.foldl (fun trie e => trie.insert e.typo.reverse e) t).lookup w = some e ↔
        (e ∈ autocorrections ∧ e.typo.reverse = w) ∨
          (t.lookup w = some e ∧ ∀ e' ∈ autocorrections, e'.typo.reverse ≠ w)) := by
  intro autocorrections
  induction autocorrections with
  | nil => simp
  | cons e₀ autocorrections ih =>
    intro t hnodup
    rw [List.map_cons, List.nodup_cons] at hnodup
    rw [List.foldl_cons, ih hnodup.2, Trie.lookup_insert]
    by_cases hw : w = e₀.typo.reverse
    · subst hw
      have hnone : ∀ e' ∈ autocorrections, e'.typo.reverse ≠ e₀.typo.reverse := fun e' he' heq =>
        hnodup.1 (List.reverse_injective heq ▸ List.mem_map_of_mem he')
      simp only [↓reduceIte, Option.some.injEq, List.mem_cons, forall_eq_or_imp, ne_eq, not_true_eq_false, false_and,
        and_false, or_false]
      constructor
      · rintro (⟨he, heq⟩ | ⟨rfl, -⟩)
        · exact absurd heq (hnone e he)
        · exact ⟨.inl rfl, rfl⟩
      · rintro ⟨rfl | he, heq⟩
        · exact .inr ⟨rfl, hnone⟩
        · exact absurd heq (hnone e he)
    · simp only [hw, ↓reduceIte, List.mem_cons, forall_eq_or_imp]
      constructor
      · rintro (⟨he, heq⟩ | ⟨ht, hnot⟩)
        · exact .inl ⟨.inr he, heq⟩
        · exact .inr ⟨ht, fun heq => hw heq.symm, hnot⟩
      · rintro (⟨rfl | he, heq⟩ | ⟨ht, -, hnot⟩)
        · exact absurd heq.symm hw
        · exact .inl ⟨he, heq⟩
        · exact .inr ⟨ht, hnot⟩

theorem lookup_makeTrie (h : Accepted autocorrections) {w : List Char} {e : Autocorrection} :
    (makeTrie autocorrections).lookup w = some e ↔ e ∈ autocorrections ∧ e.typo.reverse = w := by
  rw [makeTrie, lookup_foldl h.nodup]
  simp [Trie.lookup_empty]

theorem search_makeTrie (h : Accepted autocorrections) {typed : List Char} {e : Autocorrection} :
    (makeTrie autocorrections).search typed.reverse = some e ↔ e ∈ autocorrections ∧ e.typo <:+ typed := by
  rw [Trie.search_eq_some_iff]
  constructor
  · rintro ⟨p, hp, hlookup, -⟩
    obtain ⟨he, rfl⟩ := (lookup_makeTrie h).mp hlookup
    exact ⟨he, List.reverse_prefix.mp hp⟩
  · rintro ⟨he, hsuffix⟩
    refine ⟨e.typo.reverse, List.reverse_prefix.mpr hsuffix, (lookup_makeTrie h).mpr ⟨he, rfl⟩, fun q hq hne => ?_⟩
    cases hlookup : (makeTrie autocorrections).lookup q with
    | none => rfl
    | some e' =>
      -- A shorter typo on the way would be a part of this one.
      obtain ⟨he', rfl⟩ := (lookup_makeTrie h).mp hlookup
      have heq := h.apart e' he' e he (List.reverse_prefix.mp hq).isInfix
      exact absurd (by rw [heq]) hne

theorem rooted_foldl {okValue : Autocorrection → Prop} : ∀ {autocorrections : List Autocorrection}
    {t : Trie Char Autocorrection}, (∀ e ∈ autocorrections, okValue e) →
      (∀ e ∈ autocorrections, ∀ c ∈ e.typo, isTypoChar c = true) →
      Trie.Rooted (fun c => isTypoChar c = true) okValue t → autocorrections ≠ [] →
      Trie.All (fun c => isTypoChar c = true) okValue
        (autocorrections.foldl (fun trie e => trie.insert e.typo.reverse e) t) := by
  intro autocorrections
  induction autocorrections with
  | nil =>
    intro t _ _ _ hne
    exact absurd rfl hne
  | cons e autocorrections ih =>
    intro t hvalues hchars h _
    have hword : ∀ c ∈ e.typo.reverse, isTypoChar c = true := fun c hc =>
      hchars e List.mem_cons_self c (List.mem_reverse.mp hc)
    have hall := h.insert (hvalues e List.mem_cons_self) hword
    rw [List.foldl_cons]
    by_cases hnil : autocorrections = []
    · rw [hnil]
      exact hall
    · exact ih (fun e he => hvalues e (List.mem_cons_of_mem _ he)) (fun e he => hchars e (List.mem_cons_of_mem _ he))
        hall.rooted hnil

theorem all_makeTrie {okValue : Autocorrection → Prop} (h : Accepted autocorrections)
    (hvalues : ∀ e ∈ autocorrections, okValue e) (hne : autocorrections ≠ []) :
    Trie.All (fun c => isTypoChar c = true) okValue (makeTrie autocorrections) :=
  rooted_foldl hvalues h.chars Trie.rooted_empty hne

theorem encodes_serializeTrie (h : Accepted autocorrections)
    (hdata : serializeTrie (makeTrie autocorrections) = some data) :
    Encodes data 0 (makeTrie autocorrections) ∧ data.length ≤ 0xffff := by
  rw [serializeTrie] at hdata
  cases htable : traverse 128 (makeTrie autocorrections) 0 with
  | none => simp [htable] at hdata
  | some table =>
    simp only [htable, Option.bind_eq_bind, Option.bind_some] at hdata
    split at hdata
    · rename_i hsize
      cases hdata
      have hne : autocorrections ≠ [] := by
        rintro rfl
        cases htable
      have hall := all_makeTrie h (fun _ _ => trivial) hne
      have hwhole : table = [] ++ table ++ [] := by simp
      refine ⟨encodes_traverse htable hall hwhole rfl, ?_⟩
      rw [length_flatMap_serialize]
      rw [byteOffset, List.take_length] at hsize
      exact hsize
    · cases hdata

theorem value_makeTrie (h : Accepted autocorrections) (hdata : serializeTrie (makeTrie autocorrections) = some data)
    : (makeTrie autocorrections).value = none := by
  obtain ⟨code, -, ⟨-, hvalue⟩ | ⟨-, e, hvalue, bytes, hbytes, -⟩⟩ := (encodes_serializeTrie h hdata).1.code
  · exact hvalue
  · have hlookup : (makeTrie autocorrections).lookup [] = some e := hvalue
    obtain ⟨-, hnil⟩ := (lookup_makeTrie h).mp hlookup
    exact absurd (List.reverse_eq_nil_iff.mp hnil) (leafData_eq hbytes).1

theorem typo_ne_nil (h : Accepted autocorrections) (hdata : serializeTrie (makeTrie autocorrections) = some data) :
    ∀ e ∈ autocorrections, e.typo ≠ [] := by
  intro e he hnil
  have hlookup := (lookup_makeTrie h).mpr ⟨he, rfl⟩
  rw [hnil] at hlookup
  exact absurd ((value_makeTrie h hdata).symm.trans hlookup) (Option.some_ne_none e).symm

/-- The walk over the typed text finds the typo that the text ends with, or that there is none. -/
theorem walk_serializeTrie (h : Accepted autocorrections)
    (hdata : serializeTrie (makeTrie autocorrections) = some data) {typed : List Char}
    (htyped : ∀ c ∈ typed, isTypoChar c = true) : ∃ code, data[0]? = some code ∧
      ((walk data (typed.map typoCode).reverse 0 code = some none ∧ ∀ e ∈ autocorrections, ¬e.typo <:+ typed) ∨
        ∃ off e, walk data (typed.map typoCode).reverse 0 code = some (some off) ∧ e ∈ autocorrections ∧
          e.typo <:+ typed ∧ LeafAt data off e) := by
  obtain ⟨hencodes, hsize⟩ := encodes_serializeTrie h hdata
  obtain ⟨code, hcode, -⟩ := hencodes.code
  refine ⟨code, hcode, ?_⟩
  rw [← List.map_reverse]
  rcases hencodes.walk hsize (fun k hk => htyped k (List.mem_reverse.mp hk)) (value_makeTrie h hdata) hcode with
    ⟨hwalk, hsearch⟩ | ⟨off, e, hwalk, hsearch, hleaf⟩
  · refine .inl ⟨hwalk, fun e he hsuffix => ?_⟩
    rw [(search_makeTrie h).mpr ⟨he, hsuffix⟩] at hsearch
    cases hsearch
  · obtain ⟨he, hsuffix⟩ := (search_makeTrie h).mp hsearch
    exact .inr ⟨off, e, hwalk, he, hsuffix, hleaf⟩

end Autocorrect
end VialQmk
