import VialQmk.Autocorrect.Process

/-!
# Autocorrect.Format

The format of the table, and the walk in it.

* `Encodes` says that the bytes from an offset on are those of a node, links included.
* The walk from there takes the way that `Trie.search` takes (`Encodes.walk`).
-/

namespace VialQmk
namespace Autocorrect

open Lib

variable {data : List Nat}

theorem typoCode_cases {c : Char} (h : isTypoChar c = true) :
    c = quote ∧ typoCode c = 52 ∨ c = ':' ∧ typoCode c = 44 ∨
      97 ≤ c.toNat ∧ c.toNat ≤ 122 ∧ typoCode c = c.toNat - 93 := by
  by_cases hquote : c = quote
  · rw [hquote]
    exact .inl ⟨rfl, rfl⟩
  · by_cases hcolon : c = ':'
    · rw [hcolon]
      exact .inr (.inl ⟨rfl, rfl⟩)
    · rw [isTypoChar, decide_eq_false hquote, decide_eq_false hcolon, Bool.false_or, Bool.false_or, Bool.and_eq_true,
        decide_eq_true_eq, decide_eq_true_eq] at h
      have hlow : 97 ≤ c.toNat := h.1
      have ha : 'a'.toNat = 97 := rfl
      refine .inr (.inr ⟨hlow, h.2, ?_⟩)
      rw [typoCode, if_neg hquote, if_neg hcolon, ha, KC_A]
      omega

theorem typoCode_bounds {c : Char} (h : isTypoChar c = true) : 0 < typoCode c ∧ typoCode c < 64 := by
  rcases typoCode_cases h with ⟨-, hcode⟩ | ⟨-, hcode⟩ | ⟨hlow, hhigh, hcode⟩ <;> omega

theorem typoCode_inj {c c' : Char} (h : isTypoChar c = true) (h' : isTypoChar c' = true)
    (heq : typoCode c = typoCode c') : c = c' := by
  rcases typoCode_cases h with ⟨rfl, hcode⟩ | ⟨rfl, hcode⟩ | ⟨hlow, hhigh, hcode⟩ <;>
    rcases typoCode_cases h' with ⟨rfl, hcode'⟩ | ⟨rfl, hcode'⟩ | ⟨hlow', hhigh', hcode'⟩
  case inl.inl => rfl
  case inr.inl.inr.inl => rfl
  case inr.inr.inr.inr => exact Char.toNat_inj.mp (by omega)
  all_goals omega

theorem code_bits {n : Nat} : n < 64 →
    n &&& 64 = 0 ∧ n &&& 128 = 0 ∧ (n ||| 64) &&& 64 ≠ 0 ∧ (n ||| 64) &&& 63 = n ∧ (n ||| 64) &&& 128 = 0 ∧
      (n + 128) &&& 128 ≠ 0 ∧ (n + 128) &&& 63 = n := by
  revert n
  decide

theorem link_of_encodeLink (n : Nat) : (n &&& 255) ||| (n >>> 8) <<< 8 = n := by
  refine Nat.eq_of_testBit_eq fun i => ?_
  have h255 : (255 : Nat) = 2 ^ 8 - 1 := rfl
  rw [Nat.testBit_or, Nat.testBit_and, h255, Nat.testBit_two_pow_sub_one, Nat.testBit_shiftLeft, Nat.testBit_shiftRight]
  by_cases h : i < 8
  · simp [h]
  · simp [h, Nat.le_of_not_lt h]

def linkBytes (p : Char × Nat) : List Nat := typoCode p.1 :: encodeLink p.2

def branchBytes : List (Char × Nat) → List Nat
  | [] => []
  | p :: links => (typoCode p.1 ||| 64) :: encodeLink p.2 ++ links.flatMap linkBytes ++ [0]

/-- The bytes from the offset on are those of the node. -/
inductive Encodes (data : List Nat) : Nat → Trie Char Autocorrection → Prop where
  | leaf {off : Nat} {e : Autocorrection} {children : List (Char × Trie Char Autocorrection)} {bytes : List Nat} :
      leafData e = some bytes → bytes <+: data.drop off → Encodes data off (.node (some e) children)
  /-- Inside a chain. -/
  | more {off code : Nat} {c : Char} {t : Trie Char Autocorrection} : isTypoChar c = true →
      data[off]? = some (typoCode c) → data[off + 1]? = some code → code ≠ 0 → Encodes data (off + 1) t →
      Encodes data off (.node none [(c, t)])
  /-- At the end of a chain. -/
  | last {off : Nat} {c : Char} {t : Trie Char Autocorrection} : isTypoChar c = true →
      data[off]? = some (typoCode c) → data[off + 1]? = some 0 → Encodes data (off + 2) t →
      Encodes data off (.node none [(c, t)])
  | branch {off : Nat} {children : List (Char × Trie Char Autocorrection)} {links : List (Char × Nat)} :
      links ≠ [] → (∀ p ∈ links, isTypoChar p.1 = true) →
      (∀ c, c ∈ links.map Prod.fst ↔ c ∈ children.map Prod.fst) → branchBytes links <+: data.drop off →
      (∀ c off' t, (c, off') ∈ links → Trie.childOf c children = some t → Encodes data off' t) →
      Encodes data off (.node none children)

def LeafAt (data : List Nat) (off : Nat) (e : Autocorrection) : Prop :=
  ∃ bytes, leafData e = some bytes ∧ bytes <+: data.drop off

theorem getElem?_of_prefix_drop {bytes : List Nat} {off : Nat} (h : bytes <+: data.drop off) {i : Nat}
    (hi : i < bytes.length) : data[off + i]? = bytes[i]? := by
  rw [← List.getElem?_drop]
  obtain ⟨rest, hrest⟩ := h
  rw [← hrest, List.getElem?_append_left hi]

theorem leafData_eq {e : Autocorrection} {bytes : List Nat} (h : leafData e = some bytes) :
    e.typo ≠ [] ∧ 0 ≤ backspaces e ∧ (backspaces e).toNat < 64 ∧
      bytes = ((backspaces e).toNat + 128) :: ((changes e).map Char.toNat ++ [0]) := by
  rw [leafData] at h
  split at h
  · rename_i hok
    cases h
    exact ⟨hok.1, hok.2.1, by omega, rfl⟩
  · cases h

theorem LeafAt.code {off : Nat} {e : Autocorrection} (h : LeafAt data off e) :
    data[off]? = some ((backspaces e).toNat + 128) ∧ (backspaces e).toNat < 64 := by
  obtain ⟨bytes, hdata, hprefix⟩ := h
  obtain ⟨-, -, hlt, rfl⟩ := leafData_eq hdata
  exact ⟨getElem?_of_prefix_drop hprefix (i := 0) (Nat.succ_pos _), hlt⟩

variable {t : Trie Char Autocorrection}

theorem Encodes.code {off : Nat} (h : Encodes data off t) :
    ∃ code, data[off]? = some code ∧ (code &&& 128 = 0 ∧ t.value = none ∨
      code &&& 128 ≠ 0 ∧ ∃ e, t.value = some e ∧ LeafAt data off e) := by
  cases h with
  | leaf hdata hprefix =>
    have hleaf : LeafAt data off _ := ⟨_, hdata, hprefix⟩
    obtain ⟨hcode, hlt⟩ := hleaf.code
    exact ⟨_, hcode, .inr ⟨(code_bits hlt).2.2.2.2.2.1, _, rfl, hleaf⟩⟩
  | more hc hcode _ _ _ => exact ⟨_, hcode, .inl ⟨(code_bits (typoCode_bounds hc).2).2.1, rfl⟩⟩
  | last hc hcode _ _ => exact ⟨_, hcode, .inl ⟨(code_bits (typoCode_bounds hc).2).2.1, rfl⟩⟩
  | @branch _ _ links hne hchars _ hprefix _ =>
    cases links with
    | nil => exact absurd rfl hne
    | cons p links =>
      have hcode := getElem?_of_prefix_drop hprefix (i := 0) (Nat.succ_pos _)
      exact ⟨_, hcode, .inl ⟨(code_bits (typoCode_bounds (hchars p List.mem_cons_self)).2).2.2.2.2.1, rfl⟩⟩

theorem getElem?_lt {state code : Nat} (h : data[state]? = some code) : state < data.length :=
  (List.getElem?_eq_some_iff.mp h).1

theorem scanBranch_spec (hsize : data.length ≤ 0xffff) {k : Char} (hk : isTypoChar k = true) :
    ∀ {links : List (Char × Nat)} {state code n : Nat}, (∀ p ∈ links, isTypoChar p.1 = true) → links.length < n →
      links.flatMap linkBytes ++ [0] <+: code :: data.drop (state + 1) →
      (scanBranch data (typoCode k) n state code = some none ∧ k ∉ links.map Prod.fst) ∨
        ∃ state' off, scanBranch data (typoCode k) n state code = some (some state') ∧ (k, off) ∈ links ∧
          encodeLink off <+: data.drop (state' + 1) := by
  intro links
  induction links with
  | nil =>
    intro state code n _ hn hprefix
    obtain ⟨n, rfl⟩ := Nat.exists_eq_succ_of_ne_zero (Nat.ne_of_gt hn)
    obtain ⟨rfl, -⟩ := List.cons_prefix_cons.mp hprefix
    refine .inl ⟨?_, List.not_mem_nil⟩
    rw [scanBranch, if_neg (Nat.ne_of_lt (typoCode_bounds hk).1), if_pos rfl]
  | cons p links ih =>
    intro state code n hchars hn hprefix
    obtain ⟨n, rfl⟩ := Nat.exists_eq_succ_of_ne_zero (Nat.ne_of_gt (Nat.zero_lt_of_lt hn))
    obtain ⟨c, off⟩ := p
    have hc := hchars (c, off) List.mem_cons_self
    obtain ⟨rfl, hrest⟩ := List.cons_prefix_cons.mp (show typoCode c :: (encodeLink off ++
      (links.flatMap linkBytes ++ [0])) <+: code :: data.drop (state + 1) by simpa [linkBytes] using hprefix)
    rw [scanBranch]
    by_cases heq : c = k
    · rw [if_pos (by rw [heq])]
      exact .inr ⟨state, off, rfl, by rw [heq]; exact List.mem_cons_self, (List.prefix_append _ _).trans hrest⟩
    · have hne : typoCode c ≠ typoCode k := fun h => heq (typoCode_inj hc hk h)
      rw [if_neg hne, if_neg (Nat.ne_of_gt (typoCode_bounds hc).1)]
      have hnext : links.flatMap linkBytes ++ [0] <+: data.drop (state + 3) := by
        obtain ⟨rest, hrest⟩ := hrest
        refine ⟨rest, ?_⟩
        have hdrop : data.drop (state + 3) = (data.drop (state + 1)).drop 2 := by rw [List.drop_drop]
        rw [hdrop, ← hrest]
        rfl
      have hlt : state + 3 < data.length := by
        obtain ⟨rest, hrest⟩ := hnext
        by_contra hge
        rw [List.drop_eq_nil_of_le (by omega)] at hrest
        simp at hrest
      have hstate : (state + 3) % 0x10000 = state + 3 := Nat.mod_eq_of_lt (by omega)
      rw [List.drop_eq_getElem_cons hlt] at hnext
      rw [hstate, List.getElem?_eq_getElem hlt]
      rcases ih (fun p hp => hchars p (List.mem_cons_of_mem _ hp)) (Nat.lt_of_succ_lt_succ hn) hnext with
        ⟨hscan, hnot⟩ | ⟨state', off', hscan, hmem, hlink⟩
      · refine .inl ⟨hscan, ?_⟩
        rw [List.map_cons, List.mem_cons, not_or]
        exact ⟨fun h => heq h.symm, hnot⟩
      · exact .inr ⟨state', off', hscan, List.mem_cons_of_mem _ hmem, hlink⟩

theorem childOf_singleton {k c : Char} : Trie.childOf k [(c, t)] = if c = k then some t else none := rfl

theorem Encodes.followKey (hsize : data.length ≤ 0xffff) {k : Char} (hk : isTypoChar k = true) {off code : Nat}
    (h : Encodes data off t) (hvalue : t.value = none) (hcode : data[off]? = some code) :
    (Autocorrect.followKey data (typoCode k) off code = some none ∧ Trie.childOf k t.children = none) ∨
      ∃ off' t', Autocorrect.followKey data (typoCode k) off code = some (some off') ∧
        Trie.childOf k t.children = some t' ∧ Encodes data off' t' := by
  have hlt := getElem?_lt hcode
  cases h with
  | leaf => cases hvalue
  | @more _ next c t' hc hchar hnext hne hbelow =>
    rw [hchar] at hcode
    cases hcode
    rw [Autocorrect.followKey, if_neg (by simp [(code_bits (typoCode_bounds hc).2).1]), Trie.children,
      childOf_singleton]
    by_cases heq : c = k
    · rw [if_neg (by simp [heq]), if_pos heq, Nat.mod_eq_of_lt (by omega), hnext]
      exact .inr ⟨off + 1, t', if_neg hne, rfl, hbelow⟩
    · rw [if_pos fun h => heq (typoCode_inj hc hk h), if_neg heq]
      exact .inl ⟨rfl, rfl⟩
  | @last _ c t' hc hchar hnext hbelow =>
    rw [hchar] at hcode
    cases hcode
    have hlt' := getElem?_lt hnext
    rw [Autocorrect.followKey, if_neg (by simp [(code_bits (typoCode_bounds hc).2).1]), Trie.children,
      childOf_singleton]
    by_cases heq : c = k
    · rw [if_neg (by simp [heq]), if_pos heq, Nat.mod_eq_of_lt (by omega), hnext]
      exact .inr ⟨(off + 2) % 0x10000, t', rfl, rfl, by rwa [Nat.mod_eq_of_lt (by omega)]⟩
    · rw [if_pos fun h => heq (typoCode_inj hc hk h), if_neg heq]
      exact .inl ⟨rfl, rfl⟩
  | @branch _ children links hne hchars hletters hprefix hbelow =>
    obtain ⟨p, links, rfl⟩ := List.exists_cons_of_ne_nil hne
    obtain ⟨rest, hrest⟩ := hprefix
    have hbits := code_bits (typoCode_bounds (hchars p List.mem_cons_self)).2
    have hdrop : data.drop off = code :: data.drop (off + 1) := by
      rw [List.drop_eq_getElem_cons hlt, (List.getElem?_eq_some_iff.mp hcode).2]
    obtain ⟨rfl, htail⟩ := List.cons.inj (hrest.trans hdrop)
    have hrest : encodeLink p.2 ++ (links.flatMap linkBytes ++ [0]) ++ rest = data.drop (off + 1) := by
      rw [← htail]
      simp
    have hprefix : (p :: links).flatMap linkBytes ++ [0] <+: typoCode p.1 :: data.drop (off + 1) := by
      refine ⟨rest, ?_⟩
      rw [← hrest]
      simp [linkBytes]
    have hfuel : (p :: links).length < data.length + 1 := by
      have hlen := congrArg List.length hrest
      have hsum : ∀ links : List (Char × Nat), links.length ≤ (links.flatMap linkBytes).length := by
        intro links
        induction links with
        | nil => exact Nat.le_refl 0
        | cons p links ih =>
          rw [List.flatMap_cons, List.length_append, List.length_cons, linkBytes, encodeLink]
          simp only [List.length_cons]
          omega
      have hlinks := hsum links
      simp only [List.length_append, List.length_drop] at hlen
      rw [List.length_cons]
      omega
    rw [Autocorrect.followKey, if_pos hbits.2.2.1, hbits.2.2.2.1]
    rcases scanBranch_spec hsize hk hchars hfuel hprefix with ⟨hscan, hnot⟩ | ⟨state', off', hscan, hmem, hlink⟩
    · rw [hscan]
      rw [hletters] at hnot
      exact .inl ⟨rfl, Trie.childOf_eq_none_iff.mpr hnot⟩
    · rw [hscan]
      have hin := (hletters k).mp (List.mem_map_of_mem hmem)
      rw [Trie.children]
      cases hchild : Trie.childOf k children with
      | none => exact absurd hin (Trie.childOf_eq_none_iff.mp hchild)
      | some t' =>
        have hlow := getElem?_of_prefix_drop hlink (i := 0) (by simp [encodeLink])
        have hhigh := getElem?_of_prefix_drop hlink (i := 1) (by simp [encodeLink])
        refine .inr ⟨off', t', ?_, rfl, hbelow _ off' t' hmem hchild⟩
        simp only [Option.bind_eq_bind, Option.bind_some, hlow, hhigh]
        simp [encodeLink, link_of_encodeLink]

theorem Encodes.walk (hsize : data.length ≤ 0xffff) : ∀ {keys : List Char} {off code : Nat}
    {t : Trie Char Autocorrection}, (∀ k ∈ keys, isTypoChar k = true) → Encodes data off t → t.value = none →
      data[off]? = some code →
      (Autocorrect.walk data (keys.map typoCode) off code = some none ∧ t.search keys = none) ∨
        ∃ off' e, Autocorrect.walk data (keys.map typoCode) off code = some (some off') ∧ t.search keys = some e ∧
          LeafAt data off' e := by
  intro keys
  induction keys with
  | nil => exact fun _ _ hvalue _ => .inl ⟨rfl, hvalue⟩
  | cons k keys ih =>
    intro off code t hkeys h hvalue hcode
    have hk := hkeys k List.mem_cons_self
    rw [List.map_cons, Autocorrect.walk, Trie.search, hvalue]
    rcases h.followKey hsize hk hvalue hcode with ⟨hfollow, hchild⟩ | ⟨off', t', hfollow, hchild, hbelow⟩
    · rw [hfollow, hchild]
      exact .inl ⟨rfl, rfl⟩
    · rw [hfollow, hchild]
      obtain ⟨code', hcode', hleaf⟩ := hbelow.code
      have hlt : ¬data.length ≤ off' := Nat.not_le_of_gt (getElem?_lt hcode')
      simp only [Option.bind_eq_bind, Option.bind_some, hlt, ↓reduceIte, hcode']
      rcases hleaf with ⟨hbit, hvalue'⟩ | ⟨hbit, e, hvalue', hleaf⟩
      · rw [if_neg fun hne => hne hbit]
        exact ih (fun k hk => hkeys k (List.mem_cons_of_mem _ hk)) hbelow hvalue' hcode'
      · rw [if_pos hbit]
        refine .inr ⟨off', e, rfl, ?_, hleaf⟩
        cases keys with
        | nil => exact hvalue'
        | cons k' keys => rw [Trie.search, hvalue']

end Autocorrect
end VialQmk
