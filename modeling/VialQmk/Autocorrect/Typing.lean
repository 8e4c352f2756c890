import VialQmk.Autocorrect.Table
import Mathlib.Data.List.DropRight

/-!
# Autocorrect.Typing

Typing with autocorrection, and what is on the screen.

* A correction is due when the typed buffer ends with a typo of the dictionary. It replaces the typo and leaves the
  word breaks around it (`Corrected`).
* `autocorrects`: with sound entries (`Sound`) exactly the corrections that are due are made, whatever has been typed.
-/

namespace VialQmk
namespace Autocorrect

open Lib

def shown (c : Char) : Char := if c = ':' then ' ' else c

structure Typing where
  state : AutocorrectState
  screen : List Char

def Typing.initial : Typing := ⟨.initial, []⟩

def retype (screen : List Char) (a : AppliedCorrection) : List Char :=
  screen.take (screen.length - a.backspaces) ++ a.str.map Char.ofNat

/-- A press of a key, without modifiers, and its correction. -/
def press (d : AutocorrectData) (c : Char) (s : Typing) : Option (Option AppliedCorrection × Typing) := do
  let p ← processAutocorrect d (typoCode c) ⟨true, 0⟩ 0 s.state
  let screen := match p.applied with
    | none => s.screen
    | some a => retype s.screen a
  some (p.applied, ⟨p.state, if p.result then screen ++ [shown c] else screen⟩)

def typeText (d : AutocorrectData) : List Char → Typing → Option Typing
  | [], s => some s
  | c :: text, s => do
    let (_, s) ← press d c s
    typeText d text s

def trailing (typo : List Char) : List Char := (typo.reverse.takeWhile (· = ':')).reverse

def Corrected (e : Autocorrection) (before after : List Char) : Prop :=
  ∃ text, before = text ++ (strip e.typo ++ trailing e.typo).map shown ∧
    after = text ++ e.correction ++ (trailing e.typo).map shown

def longestWord (maxLength : Nat) (typo : List Char) : Nat :=
  if typo.head? = some ':' ∧ strip typo ≠ [] then (strip typo).length else maxLength - (trailing typo).length

/-- The entries that the code gets right: one word, with one word break after it at most, and a correction that is a
string in C and fits into the array for the corrected word. -/
structure Sound (maxLength : Nat) (e : Autocorrection) : Prop where
  trailing : (trailing e.typo).length ≤ 1
  word : ':' ∉ strip e.typo
  text : ∀ c ∈ e.correction, c.toNat ≠ 0
  fits : longestWord maxLength e.typo + e.correction.length + 1 ≤ (strip e.typo).length + (maxLength + 10)

instance (maxLength : Nat) (e : Autocorrection) : Decidable (Sound maxLength e) :=
  decidable_of_iff ((Autocorrect.trailing e.typo).length ≤ 1 ∧ ':' ∉ strip e.typo ∧
    e.correction.all (fun c => c.toNat ≠ 0) = true ∧
    longestWord maxLength e.typo + e.correction.length + 1 ≤ (strip e.typo).length + (maxLength + 10))
    ⟨fun ⟨htrailing, hword, htext, hfits⟩ =>
      ⟨htrailing, hword, fun c hc => of_decide_eq_true (List.all_eq_true.mp htext c hc), hfits⟩,
      fun h => ⟨h.trailing, h.word, List.all_eq_true.mpr fun c hc => decide_eq_true (h.text c hc), h.fits⟩⟩

variable {typo : List Char} {e : Autocorrection} {maxLength : Nat} {c : Char}

theorem mem_takeWhile_colon {text : List Char} (h : c ∈ text.takeWhile (· = ':')) : c = ':' := by
  simpa using List.mem_takeWhile_imp h

theorem trailing_all : ∀ c ∈ trailing typo, c = ':' := fun _ hc =>
  mem_takeWhile_colon (List.mem_reverse.mp hc)

theorem typo_parts (typo : List Char) :
    ∃ lead, typo = lead ++ strip typo ++ trailing typo ∧ (∀ c ∈ lead, c = ':') ∧
      (strip typo ≠ [] → lead = typo.takeWhile (· = ':')) := by
  have hsplit := List.takeWhile_append_dropWhile (p := fun c => decide (c = ':')) (l := typo)
  have hlead : ∀ c ∈ typo.takeWhile (· = ':'), c = ':' := fun c => mem_takeWhile_colon
  cases hrest : typo.dropWhile (· = ':') with
  | nil =>
    rw [hrest, List.append_nil] at hsplit
    have hstrip : strip typo = [] := by rw [strip, hrest]; rfl
    have htrailing : trailing typo = typo := by
      rw [trailing, List.takeWhile_eq_self_iff.mpr, List.reverse_reverse]
      intro c hc
      exact decide_eq_true (hlead c (hsplit.symm ▸ List.mem_reverse.mp hc))
    exact ⟨[], by rw [hstrip, htrailing]; rfl, by simp, fun hne => absurd hstrip hne⟩
  | cons c rest =>
    have hc : c ≠ ':' := by
      intro heq
      have hhead := List.head_dropWhile_not (fun c => decide (c = ':')) (l := typo) (by simp [hrest])
      simp [hrest, heq] at hhead
    have htrailing : trailing typo = ((typo.dropWhile (· = ':')).reverse.takeWhile (· = ':')).reverse := by
      rw [trailing]
      conv_lhs => rw [← hsplit, List.reverse_append]
      rw [List.takeWhile_append, if_neg]
      intro hlen
      have hself := (List.takeWhile_prefix (p := fun c => decide (c = ':'))
        (l := (typo.dropWhile (· = ':')).reverse)).eq_of_length hlen
      have hmem : c ∈ (typo.dropWhile (· = ':')).reverse := by simp [hrest]
      rw [← hself] at hmem
      exact hc (mem_takeWhile_colon hmem)
    refine ⟨typo.takeWhile (· = ':'), ?_, hlead, fun _ => rfl⟩
    have hright := List.takeWhile_append_dropWhile (p := fun c => decide (c = ':'))
      (l := (typo.dropWhile (· = ':')).reverse)
    have hreverse := congrArg List.reverse hright
    rw [List.reverse_append, List.reverse_reverse] at hreverse
    rw [htrailing, strip, List.append_assoc, hreverse, hsplit]

theorem trailing_eq_nil_or (h : (trailing typo).length ≤ 1) : trailing typo = [] ∨ trailing typo = [':'] := by
  match hparts : trailing typo, h with
  | [], _ => exact .inl rfl
  | [c], _ => exact .inr (by rw [trailing_all c (by rw [hparts]; exact List.mem_singleton_self c)])

theorem wordBoundaryEnding_iff : wordBoundaryEnding typo = true ↔ trailing typo ≠ [] := by
  rw [wordBoundaryEnding, decide_eq_true_eq, trailing, List.getLast?_eq_head?_reverse, ne_eq, List.reverse_eq_nil_iff]
  cases typo.reverse with
  | nil => simp
  | cons c rest =>
    by_cases h : c = ':' <;> simp [h]

theorem commonPrefix_spec : ∀ {typo correction : List Char},
    typo.take (commonPrefix typo correction) = correction.take (commonPrefix typo correction) ∧
      commonPrefix typo correction ≤ typo.length ∧ commonPrefix typo correction ≤ correction.length := by
  intro typo
  induction typo with
  | nil => intro correction; simp [commonPrefix]
  | cons a typo ih =>
    intro correction
    cases correction with
    | nil => simp [commonPrefix]
    | cons b correction =>
      rw [commonPrefix]
      split
      · rename_i heq
        obtain ⟨htake, hle, hle'⟩ := @ih correction
        simp [heq, htake, hle, hle']
      · simp

/-- The loop stops in front of the nearest word break, the last letter apart, or at the start. -/
theorem gatherTypo_spec {typoBuffer : List Nat} : ∀ {i typoLen : Nat}, ∃ n, n ≤ i ∧
    gatherTypo typoBuffer i typoLen = (i - n, typoLen + n) ∧
    (∀ j, i - n ≤ j → j < i → j + 1 ≠ typoBuffer.length → typoBuffer[j]? ≠ some KC_SPC) ∧
    (n < i → typoBuffer[i - n - 1]? = some KC_SPC ∧ i - n ≠ typoBuffer.length) := by
  intro i
  induction i with
  | zero =>
    intro typoLen
    refine ⟨0, Nat.le_refl 0, rfl, fun j _ hj => absurd hj (Nat.not_lt_zero j), fun h => absurd h (Nat.lt_irrefl 0)⟩
  | succ i ih =>
    intro typoLen
    rw [gatherTypo]
    split
    · rename_i hbreak
      exact ⟨0, Nat.zero_le _, rfl, fun j hle hlt => by omega, fun _ => hbreak⟩
    · rename_i hbreak
      obtain ⟨n, hn, heq, hwithin, hstop⟩ := @ih (typoLen + 1)
      refine ⟨n + 1, by omega, ?_, fun j hle hlt hne hspace => ?_, fun hlt => ?_⟩
      · rw [heq, Nat.add_sub_add_right, Nat.add_right_comm, Nat.add_assoc]
      · by_cases hj : j = i
        · subst hj
          exact hbreak ⟨hspace, hne⟩
        · exact hwithin j (by omega) (by omega) hne hspace
      · rw [Nat.add_sub_add_right]
        exact hstop (by omega)

theorem typoCode_eq_space (h : isTypoChar c = true) : typoCode c = KC_SPC ↔ c = ':' := by
  constructor
  · intro heq
    exact typoCode_inj h (by decide) heq
  · rintro rfl
    rfl

theorem gatherTypo_typo {typed : List Char} (htyped : ∀ c ∈ typed, isTypoChar c = true) (hsuffix : e.typo <:+ typed)
    (hlength : typed.length ≤ maxLength) (hsound : Sound maxLength e) :
    ∃ start len, gatherTypo (typed.map typoCode) typed.length 0 = (start, len) ∧
      (strip e.typo).length + (trailing e.typo).length ≤ len ∧
      len ≤ longestWord maxLength e.typo + (trailing e.typo).length := by
  obtain ⟨n, hn, heq, hwithin, hstop⟩ := @gatherTypo_spec (typed.map typoCode) typed.length 0
  obtain ⟨lead, hparts, hlead, htakeWhile⟩ := typo_parts e.typo
  obtain ⟨before, hbefore⟩ := hsuffix
  have hspace : ∀ {j : Nat}, (typed.map typoCode)[j]? = some KC_SPC ↔ typed[j]? = some ':' := by
    intro j
    rw [List.getElem?_map, Option.map_eq_some_iff]
    constructor
    · rintro ⟨c, hc, hcode⟩
      rw [hc, (typoCode_eq_space (htyped c (List.mem_of_getElem? hc))).mp hcode]
    · intro h
      exact ⟨':', h, rfl⟩
  rw [List.length_map] at hwithin hstop
  have hlen : typed.length = before.length + lead.length + (strip e.typo).length + (trailing e.typo).length := by
    rw [← hbefore, List.length_append]
    conv_lhs => rw [hparts]
    simp only [List.length_append]
    omega
  have hbound := hsound.trailing
  refine ⟨typed.length - n, n, by rw [heq, Nat.zero_add], ?_, ?_⟩
  · by_contra hlt
    obtain ⟨hbreak, -⟩ := hstop (by omega)
    have hcore := hspace.mp hbreak
    rw [← hbefore, hparts, List.append_assoc, ← List.append_assoc,
      List.getElem?_append_right (by simp only [List.length_append]; omega),
      List.getElem?_append_left (by simp only [List.length_append]; omega)] at hcore
    exact hsound.word (List.mem_of_getElem? hcore)
  · rw [longestWord]
    split
    · rename_i hbreak
      by_contra hlt
      -- The word break before the typo ends the word.
      have hleadNe : lead ≠ [] := by
        rw [htakeWhile hbreak.2]
        obtain ⟨rest, hrest⟩ := List.head?_eq_some_iff.mp hbreak.1
        rw [hrest]
        simp
      have hlast : typed[before.length + lead.length - 1]? = some ':' := by
        have hpos := List.length_pos_iff.mpr hleadNe
        rw [← hbefore, hparts, List.getElem?_append_right (by omega), List.append_assoc,
          List.getElem?_append_left (by omega)]
        have hlt : before.length + lead.length - 1 - before.length < lead.length := by omega
        rw [List.getElem?_eq_getElem hlt, hlead _ (List.getElem_mem hlt)]
      exact hwithin (before.length + lead.length - 1) (by omega) (by omega) (by
        have hpos := List.length_pos_iff.mpr hbreak.2
        omega) (hspace.mpr hlast)
    · omega

theorem readString_changes {text : List Char} {rest : List Nat} (h : ∀ c ∈ text, c.toNat ≠ 0) :
    readString (text.map Char.toNat ++ [0] ++ rest) = some (text.map Char.toNat) := by
  rw [readString, if_pos (by simp), List.append_assoc, List.takeWhile_append_of_pos, List.singleton_append,
    List.takeWhile_cons_of_neg (by simp), List.append_nil]
  intro n hn
  obtain ⟨c, hc, rfl⟩ := List.mem_map.mp hn
  exact decide_eq_true (h c hc)

theorem getLast?_typed {typed : List Char} (htyped : ∀ c ∈ typed, isTypoChar c = true) (hsuffix : e.typo <:+ typed)
    (hne : e.typo ≠ []) : (typed.map typoCode).getLast? = some KC_SPC ↔ trailing e.typo ≠ [] := by
  obtain ⟨before, hbefore⟩ := hsuffix
  have hlast : typed.getLast? = e.typo.getLast? := by
    rw [← hbefore, List.getLast?_append, List.getLast?_eq_some_getLast hne]
    rfl
  rw [← wordBoundaryEnding_iff, wordBoundaryEnding, decide_eq_true_eq, ← hlast, List.getLast?_map,
    Option.map_eq_some_iff]
  constructor
  · rintro ⟨c, hc, hcode⟩
    rw [hc, (typoCode_eq_space (htyped c (List.mem_of_getLast? hc))).mp hcode]
  · intro h
    exact ⟨':', h, rfl⟩

/-- The backspaces count the last letter, unless it is still to come, and the word break after the typo. -/
theorem backspaces_eq (hsound : Sound maxLength e) :
    backspaces e = (strip e.typo).length - commonPrefix (strip e.typo) e.correction - 1 + (trailing e.typo).length := by
  rw [backspaces]
  rcases trailing_eq_nil_or hsound.trailing with h | h
  · have hending : wordBoundaryEnding e.typo = false := by
      rw [Bool.eq_false_iff, ne_eq, wordBoundaryEnding_iff, h]
      exact fun hne => hne rfl
    simp [hending, h]
  · have hending : wordBoundaryEnding e.typo = true := by
      rw [wordBoundaryEnding_iff, h]
      exact List.cons_ne_nil _ _
    simp [hending, h]

theorem foundTypo_sound {d : AutocorrectData} {off : Nat} (hleaf : LeafAt d.data off e) {typed : List Char}
    (htyped : ∀ c ∈ typed, isTypoChar c = true) (hsuffix : e.typo <:+ typed) (hne : e.typo ≠ [])
    (hlength : typed.length ≤ d.maxLength) (hsound : Sound d.maxLength e) :
    ∃ a, foundTypo d (typed.map typoCode) off = some a ∧ a.backspaces = (backspaces e).toNat ∧
      a.str = (changes e).map Char.toNat := by
  obtain ⟨hcode, hlt⟩ := hleaf.code
  obtain ⟨bytes, hbytes, rest, hrest⟩ := hleaf
  obtain ⟨-, hpos, -, rfl⟩ := leafData_eq hbytes
  have hdrop : d.data.drop (off + 1) = (changes e).map Char.toNat ++ [0] ++ rest := by
    rw [← List.drop_drop, ← hrest]
    rfl
  have hstring : readString ((changes e).map Char.toNat ++ [0] ++ rest) = some ((changes e).map Char.toNat) :=
    readString_changes fun c hc => hsound.text c (List.mem_of_mem_drop hc)
  obtain ⟨start, len, hgather, hcore, hlongest⟩ := gatherTypo_typo htyped hsuffix hlength hsound
  obtain ⟨-, hprefix, hprefix'⟩ := @commonPrefix_spec (strip e.typo) e.correction
  have hchanges : (changes e).length = e.correction.length - commonPrefix (strip e.typo) e.correction := by
    rw [changes, List.length_drop]
  have hspace := getLast?_typed htyped hsuffix hne
  have hback := backspaces_eq hsound
  have hfits := hsound.fits
  have hfinish : ∀ {spaceLast : Prop} [Decidable spaceLast], (spaceLast ↔ trailing e.typo ≠ []) →
      (if spaceLast then (backspaces e).toNat else (backspaces e).toNat + 1) ≤ (if spaceLast then len - 1 else len) ∧
        (if spaceLast then len - 1 else len) - (if spaceLast then (backspaces e).toNat else (backspaces e).toNat + 1) +
          ((changes e).map Char.toNat).length + 1 ≤ d.maxLength + 10 := by
    intro spaceLast _ hspace
    rw [List.length_map, hchanges]
    rcases trailing_eq_nil_or hsound.trailing with h | h
    · rw [if_neg fun hlast => hspace.mp hlast h, if_neg fun hlast => hspace.mp hlast h]
      rw [h, List.length_nil] at hcore hlongest hback
      omega
    · rw [if_pos (hspace.mpr (by simp [h])), if_pos (hspace.mpr (by simp [h]))]
      rw [h, List.length_singleton] at hcore hlongest hback
      omega
  rw [foundTypo, hcode, hdrop, hstring, List.length_map, hgather]
  simp only [Option.bind_eq_bind, Option.bind_some, (code_bits hlt).2.2.2.2.2.2]
  rw [if_pos (hfinish hspace)]
  exact ⟨_, rfl, rfl, rfl⟩

/-- A dictionary and what the generator has made of it. -/
structure Generated (autocorrections : List Autocorrection) (d : AutocorrectData) : Prop where
  accepted : Accepted autocorrections
  data : serializeTrie (makeTrie autocorrections) = some d.data
  minLength : ∀ e ∈ autocorrections, d.minLength ≤ e.typo.length
  maxLength : ∀ e ∈ autocorrections, e.typo.length ≤ d.maxLength
  nonempty : autocorrections ≠ []

theorem generated {lines autocorrections : List Autocorrection} {d : AutocorrectData}
    (hfile : parseFile lines = some autocorrections) (h : generateAutocorrectData lines = some d) :
    Generated autocorrections d := by
  have haccepted := accepted_parseFile hfile
  rw [generateAutocorrectData, hfile] at h
  simp only [Option.bind_eq_bind, Option.bind_some, Option.bind_eq_some_iff] at h
  obtain ⟨data, hdata, minLength, hmin, maxLength, hmax, h⟩ := h
  split at h
  · cases h
    refine ⟨haccepted, hdata, fun e he => ?_, fun e he => ?_, ?_⟩
    · exact (List.min?_eq_some_iff.mp hmin).2 _ (List.mem_map_of_mem he)
    · exact (List.max?_eq_some_iff.mp hmax).2 _ (List.mem_map_of_mem he)
    · rintro rfl
      cases hmin
  · cases h

variable {autocorrections : List Autocorrection} {d : AutocorrectData}

theorem Generated.typo_ne_nil (h : Generated autocorrections d) : ∀ e ∈ autocorrections, e.typo ≠ [] :=
  Autocorrect.typo_ne_nil h.accepted h.data

theorem Generated.maxLength_pos (h : Generated autocorrections d) : 0 < d.maxLength := by
  obtain ⟨e, he⟩ := List.exists_mem_of_ne_nil _ h.nonempty
  exact Nat.lt_of_lt_of_le (List.length_pos_iff.mpr (h.typo_ne_nil e he)) (h.maxLength e he)

theorem Generated.suffix_unique (hd : Generated autocorrections d) {e' : Autocorrection} (he : e ∈ autocorrections)
    (he' : e' ∈ autocorrections) {typed : List Char} (h : e.typo <:+ typed) (h' : e'.typo <:+ typed) : e' = e := by
  rcases List.suffix_or_suffix_of_suffix h h' with hpart | hpart
  · exact (hd.accepted.apart e he e' he' hpart.isInfix).symm
  · exact hd.accepted.apart e' he' e he hpart.isInfix

theorem processAutocorrect_typoChar (hc : isTypoChar c = true) {record : KeyRecord}
    (hpressed : record.pressed = true) {s : AutocorrectState} (henabled : s.enabled = true) :
    processAutocorrect d (typoCode c) record 0 s = typeKeycode d (typoCode c) s := by
  have hcodes : ∀ code, code < 57 → excludedRanges.any (inRange code) = false ∧
      inRange code (QK_LSFT, QK_LSFT + 255) = false ∧ inRange code (QK_RSFT, QK_RSFT + 255) = false ∧
      tapRanges.any (inRange code) = false ∧ inRange code swapHandsRange = false := by
    decide
  have hcases : typoCode c < 57 ∧ (inRange (typoCode c) (KC_A, KC_Z) = true ∨ typoCode c = KC_SPC ∨
      typoCode c = KC_QUOT) := by
    rcases typoCode_cases hc with ⟨-, h⟩ | ⟨-, h⟩ | ⟨hlow, hhigh, h⟩
    · exact ⟨by omega, .inr (.inr h)⟩
    · exact ⟨by omega, .inr (.inl h)⟩
    · refine ⟨by omega, .inl ?_⟩
      rw [inRange, Bool.and_eq_true, decide_eq_true_eq, decide_eq_true_eq, KC_A, KC_Z]
      omega
  have hswitch : ¬(QK_AUTOCORRECT_ON ≤ typoCode c ∧ typoCode c ≤ QK_AUTOCORRECT_TOGGLE ∧ record.pressed = true) := by
    rw [QK_AUTOCORRECT_ON]
    omega
  have hhandler : processAutocorrectDefaultHandler (typoCode c) record 0 s = (some (typoCode c, 0), s) := by
    obtain ⟨hexcluded, hleft, hright, htap, hswap⟩ := hcodes _ hcases.1
    rw [processAutocorrectDefaultHandler, hexcluded, hleft, hright, htap, hswap]
    rfl
  rw [processAutocorrect, if_neg hswitch, henabled, hpressed, hhandler]
  rcases hcases.2 with h | h | h
  · simp [h]
  · rw [h]
    rfl
  · rw [h]
    rfl

/-- The letters in the buffer, and that they are at the end of what is on the screen. -/
structure TypingInv (d : AutocorrectData) (typed : List Char) (s : Typing) : Prop where
  enabled : s.state.enabled = true
  buffer : s.state.typoBuffer = typed.map typoCode
  chars : ∀ c ∈ typed, isTypoChar c = true
  length : typed.length ≤ d.maxLength
  screen : typed.map shown <:+ ' ' :: s.screen

theorem typingInv_initial (h : Generated autocorrections d) : TypingInv d [':'] .initial where
  enabled := rfl
  buffer := rfl
  chars := List.all_eq_true.mp (by decide)
  length := h.maxLength_pos
  screen := List.suffix_refl _

theorem appendKeycode_typed (hpos : 0 < maxLength) {typed : List Char} (hlength : typed.length ≤ maxLength)
    (c : Char) : ∃ kept, kept <:+ typed ∧ kept.length + 1 ≤ maxLength ∧
      appendKeycode maxLength (typoCode c) (typed.map typoCode) = (kept ++ [c]).map typoCode := by
  rw [appendKeycode, List.length_map]
  split
  · refine ⟨typed.drop 1, List.drop_suffix 1 typed, by rw [List.length_drop]; omega, ?_⟩
    rw [List.take_of_length_le (by rw [List.length_drop, List.length_map]; omega), List.map_append, List.map_drop]
    rfl
  · exact ⟨typed, List.suffix_refl _, by omega, by rw [List.map_append]; rfl⟩

theorem shown_eq_space (h : isTypoChar c = true) : shown c = ' ' ↔ c = ':' := by
  rw [shown]
  split
  · rename_i heq
    simp [heq]
  · rename_i hne
    refine ⟨fun hspace => ?_, fun heq => absurd heq hne⟩
    rw [hspace] at h
    exact absurd h (by decide)

theorem corrected (hsound : Sound maxLength e) (hpos : 0 ≤ backspaces e) {screen before : List Char}
    (hlast : c = ':' ↔ trailing e.typo ≠ [])
    (hbefore : screen ++ [shown c] = before ++ (strip e.typo ++ trailing e.typo).map shown) {a : AppliedCorrection}
    (hbackspaces : a.backspaces = (backspaces e).toNat) (hstr : a.str = (changes e).map Char.toNat) :
    Corrected e (screen ++ [shown c])
      (if c = ':' then retype screen a ++ [shown c] else retype screen a) := by
  refine ⟨before, hbefore, ?_⟩
  obtain ⟨htake, hprefix, hprefix'⟩ := @commonPrefix_spec (strip e.typo) e.correction
  have hstrip : (strip e.typo).map shown = strip e.typo := by
    refine (List.map_congr_left fun x hx => ?_).trans (List.map_id _)
    have hne : x ≠ ':' := by
      rintro rfl
      exact hsound.word hx
    exact if_neg hne
  have htext : a.str.map Char.ofNat = e.correction.drop (commonPrefix (strip e.typo) e.correction) := by
    rw [hstr, List.map_map, changes]
    refine (List.map_congr_left fun x _ => ?_).trans (List.map_id _)
    rw [Function.comp_apply, Char.ofNat_toNat]
    rfl
  have hlength : screen.length + 1 = before.length + (strip e.typo).length + (trailing e.typo).length := by
    have hlength := congrArg List.length hbefore
    simp only [List.length_append, List.length_singleton, List.length_map] at hlength
    omega
  have hback := backspaces_eq hsound
  have hkept : screen.take (screen.length - a.backspaces) =
      before ++ (strip e.typo).take (commonPrefix (strip e.typo) e.correction) := by
    have hcount : screen.length - a.backspaces = before.length + commonPrefix (strip e.typo) e.correction := by omega
    have hshort : before.length + commonPrefix (strip e.typo) e.correction ≤ screen.length := by omega
    have hscreen : screen.take (before.length + commonPrefix (strip e.typo) e.correction) =
        (screen ++ [shown c]).take (before.length + commonPrefix (strip e.typo) e.correction) :=
      (List.take_append_of_le_length hshort).symm
    rw [hcount, hscreen, hbefore, List.take_length_add_append, List.map_append, hstrip,
      List.take_append_of_le_length hprefix]
  have hretype : retype screen a = before ++ e.correction := by
    rw [retype, hkept, htext, htake, List.append_assoc, List.take_append_drop]
  rw [hretype]
  rcases trailing_eq_nil_or hsound.trailing with h | h
  · rw [if_neg fun heq => hlast.mp heq h, h, List.map_nil, List.append_nil]
  · rw [if_pos (hlast.mpr (by simp [h])), h, hlast.mpr (by simp [h])]
    rfl

theorem typeKeycode_spec (hd : Generated autocorrections d) (hsound : ∀ e ∈ autocorrections, Sound d.maxLength e)
    {s : AutocorrectState} {typed : List Char} (hc : isTypoChar c = true)
    (happend : appendKeycode d.maxLength (typoCode c) s.typoBuffer = typed.map typoCode)
    (htyped : ∀ c ∈ typed, isTypoChar c = true) (hlength : typed.length ≤ d.maxLength) :
    (typeKeycode d (typoCode c) s = some ⟨true, none, { s with typoBuffer := typed.map typoCode }⟩ ∧
      ∀ e ∈ autocorrections, ¬e.typo <:+ typed) ∨
    ∃ e ∈ autocorrections, e.typo <:+ typed ∧ 0 ≤ backspaces e ∧
      ∃ a, typeKeycode d (typoCode c) s =
          some ⟨decide (c = ':'), some a, { s with typoBuffer := if c = ':' then [KC_SPC] else [] }⟩ ∧
        a.backspaces = (backspaces e).toNat ∧ a.str = (changes e).map Char.toNat := by
  rw [typeKeycode, happend]
  split
  · -- The buffer is shorter than every typo.
    rename_i hshort
    refine .inl ⟨rfl, fun e he hsuffix => ?_⟩
    have hle := hsuffix.length_le
    have hmin := hd.minLength e he
    rw [List.length_map] at hshort
    omega
  · obtain ⟨code, hcode, ⟨hwalk, hnone⟩ | ⟨off, e, hwalk, he, hsuffix, hleaf⟩⟩ :=
      walk_serializeTrie hd.accepted hd.data htyped
    · rw [hcode]
      simp only [Option.bind_eq_bind, Option.bind_some, hwalk]
      exact .inl ⟨trivial, hnone⟩
    · have hne := hd.typo_ne_nil e he
      obtain ⟨a, hfound, hbackspaces, hstr⟩ := foundTypo_sound hleaf htyped hsuffix hne hlength (hsound e he)
      obtain ⟨bytes, hbytes, -⟩ := hleaf
      refine .inr ⟨e, he, hsuffix, (leafData_eq hbytes).2.1, a, ?_, hbackspaces, hstr⟩
      rw [hcode]
      simp only [Option.bind_eq_bind, Option.bind_some, hwalk, hfound, typoCode_eq_space hc]
      by_cases hspace : c = ':' <;> simp [hspace]

/-- The word breaks in front of a typo may be from before the first letter on the screen, the typo is not. -/
theorem typo_on_screen (hsound : Sound maxLength e) {typed screen : List Char}
    (htyped : ∀ c ∈ typed, isTypoChar c = true) (hsuffix : e.typo <:+ typed)
    (hscreen : typed.map shown <:+ ' ' :: (screen ++ [c])) :
    ∃ before, screen ++ [c] = before ++ (strip e.typo ++ trailing e.typo).map shown := by
  obtain ⟨lead, hparts, -⟩ := typo_parts e.typo
  have hpart : (strip e.typo ++ trailing e.typo) <:+ e.typo :=
    ⟨lead, by conv_rhs => rw [hparts, List.append_assoc]⟩
  rcases List.suffix_cons_iff.mp (((hpart.trans hsuffix).map shown).trans hscreen) with heq | ⟨before, hbefore⟩
  · exfalso
    cases hstrip : strip e.typo with
    | nil =>
      rw [hstrip] at heq
      have hlen := congrArg List.length heq
      have hbound := hsound.trailing
      simp only [List.nil_append, List.length_map, List.length_cons, List.length_append, List.length_nil] at hlen
      omega
    | cons x rest =>
      rw [hstrip] at heq
      have hx : x ∈ strip e.typo := by rw [hstrip]; exact List.mem_cons_self
      have hspace := (shown_eq_space (htyped x ((hpart.trans hsuffix).subset (List.mem_append_left _ hx)))).mp
        (List.cons.inj heq).1
      exact hsound.word (hspace ▸ hx)
  · exact ⟨before, hbefore.symm⟩

theorem TypingInv.press (hd : Generated autocorrections d) (hsound : ∀ e ∈ autocorrections, Sound d.maxLength e)
    {typed : List Char} {s : Typing} (h : TypingInv d typed s) (hc : isTypoChar c = true) :
    ∃ typed' applied s', Autocorrect.press d c s = some (applied, s') ∧
      appendKeycode d.maxLength (typoCode c) s.state.typoBuffer = typed'.map typoCode ∧
      (∀ c ∈ typed', isTypoChar c = true) ∧
      (applied.isSome = true ↔ ∃ e ∈ autocorrections, e.typo <:+ typed') ∧
      (∀ e ∈ autocorrections, e.typo <:+ typed' → Corrected e (s.screen ++ [shown c]) s'.screen) ∧
      ∃ typed'', TypingInv d typed'' s' := by
  obtain ⟨kept, hkept, hroom, happend⟩ := appendKeycode_typed hd.maxLength_pos h.length c
  rw [← h.buffer] at happend
  have hchars : ∀ x ∈ kept ++ [c], isTypoChar x = true := by
    intro x hx
    rcases List.mem_append.mp hx with hx | hx
    · exact h.chars x (hkept.subset hx)
    · rwa [List.mem_singleton.mp hx]
  have hlength : (kept ++ [c]).length ≤ d.maxLength := by
    rw [List.length_append, List.length_singleton]
    exact hroom
  have hscreen : (kept ++ [c]).map shown <:+ ' ' :: (s.screen ++ [shown c]) := by
    obtain ⟨pre, hpre⟩ := (hkept.map shown).trans h.screen
    refine ⟨pre, ?_⟩
    rw [List.map_append, ← List.append_assoc, hpre]
    rfl
  refine ⟨kept ++ [c], ?_⟩
  rw [Autocorrect.press, processAutocorrect_typoChar hc rfl h.enabled]
  rcases typeKeycode_spec hd hsound hc happend hchars hlength with
    ⟨hprocess, hnone⟩ | ⟨e, he, hsuffix, hpos, a, hprocess, hbackspaces, hstr⟩
  · rw [hprocess]
    refine ⟨none, _, rfl, happend, hchars, ⟨?_, ?_⟩, fun e he hsuffix => absurd hsuffix (hnone e he), kept ++ [c],
      ⟨h.enabled, rfl, hchars, hlength, hscreen⟩⟩
    · intro hsome
      cases hsome
    · rintro ⟨e, he, hsuffix⟩
      exact absurd hsuffix (hnone e he)
  · rw [hprocess]
    have hlast : c = ':' ↔ trailing e.typo ≠ [] := by
      rw [← getLast?_typed hchars hsuffix (hd.typo_ne_nil e he), List.map_append, List.map_singleton,
        List.getLast?_concat, Option.some.injEq, typoCode_eq_space hc]
    obtain ⟨before, hbefore⟩ := typo_on_screen (hsound e he) hchars hsuffix hscreen
    have hcorrected := corrected (hsound e he) hpos hlast hbefore hbackspaces hstr
    refine ⟨some a, _, rfl, happend, hchars, ⟨fun _ => ⟨e, he, hsuffix⟩, fun _ => rfl⟩, fun e' he' hsuffix' => ?_, ?_⟩
    · rw [hd.suffix_unique he he' hsuffix hsuffix']
      simpa only [decide_eq_true_eq] using hcorrected
    · by_cases hspace : c = ':'
      · refine ⟨[':'], h.enabled, if_pos hspace, List.all_eq_true.mp (by decide), hd.maxLength_pos, ?_⟩
        simp only [hspace, decide_true, ↓reduceIte]
        exact ⟨' ' :: retype s.screen a, rfl⟩
      · exact ⟨[], h.enabled, by simp [hspace], by simp, Nat.zero_le _, List.nil_suffix⟩

theorem TypingInv.typeText (hd : Generated autocorrections d) (hsound : ∀ e ∈ autocorrections, Sound d.maxLength e) :
    ∀ {text typed : List Char} {s : Typing}, (∀ c ∈ text, isTypoChar c = true) → TypingInv d typed s →
      ∃ typed' s', Autocorrect.typeText d text s = some s' ∧ TypingInv d typed' s' := by
  intro text
  induction text with
  | nil => exact fun {typed s} _ h => ⟨typed, s, rfl, h⟩
  | cons c text ih =>
    intro typed s htext h
    obtain ⟨_, _, s', hpress, -, -, -, -, typed', h'⟩ := h.press hd hsound (htext c List.mem_cons_self)
    obtain ⟨typed'', s'', htype, h''⟩ := ih (fun c hc => htext c (List.mem_cons_of_mem _ hc)) h'
    refine ⟨typed'', s'', ?_, h''⟩
    rw [Autocorrect.typeText, hpress]
    exact htype

theorem map_typoCode_inj : ∀ {a b : List Char}, (∀ c ∈ a, isTypoChar c = true) → (∀ c ∈ b, isTypoChar c = true) →
    a.map typoCode = b.map typoCode → a = b := by
  intro a
  induction a with
  | nil =>
    intro b _ _ h
    exact (List.map_eq_nil_iff.mp h.symm).symm
  | cons x a ih =>
    intro b ha hb h
    obtain ⟨y, b, rfl, hxy, hrest⟩ := List.map_eq_cons_iff.mp h.symm
    rw [typoCode_inj (hb y List.mem_cons_self) (ha x List.mem_cons_self) hxy,
      ih (fun c hc => ha c (List.mem_cons_of_mem _ hc)) (fun c hc => hb c (List.mem_cons_of_mem _ hc)) hrest.symm]

theorem suffix_typed_iff {typed : List Char} (htypo : ∀ c ∈ typo, isTypoChar c = true)
    (htyped : ∀ c ∈ typed, isTypoChar c = true) : typo.map typoCode <:+ typed.map typoCode ↔ typo <:+ typed := by
  constructor
  · rintro ⟨pre, hpre⟩
    obtain ⟨before, rest, rfl, -, hrest⟩ := List.map_eq_append_iff.mp hpre.symm
    have heq := map_typoCode_inj (fun c hc => htyped c (List.mem_append_right _ hc)) htypo hrest
    exact ⟨before, by rw [heq]⟩
  · exact fun h => h.map typoCode

/-- After the text, the press of the key is answered with a correction exactly when the buffer then ends with a typo,
and the correction takes the place of the typo. -/
def CorrectsNext (autocorrections : List Autocorrection) (d : AutocorrectData) (text : List Char) (c : Char) : Prop :=
  ∃ s applied s', typeText d text .initial = some s ∧ press d c s = some (applied, s') ∧
    (applied.isSome = true ↔ ∃ e ∈ autocorrections,
      e.typo.map typoCode <:+ appendKeycode d.maxLength (typoCode c) s.state.typoBuffer) ∧
    ∀ e ∈ autocorrections, e.typo.map typoCode <:+ appendKeycode d.maxLength (typoCode c) s.state.typoBuffer →
      Corrected e (s.screen ++ [shown c]) s'.screen

theorem autocorrects {lines : List Autocorrection} (hfile : parseFile lines = some autocorrections)
    (hdata : generateAutocorrectData lines = some d) (hsound : ∀ e ∈ autocorrections, Sound d.maxLength e)
    {text : List Char} (htext : ∀ c ∈ text, isTypoChar c = true) {c : Char} (hc : isTypoChar c = true) :
    CorrectsNext autocorrections d text c := by
  have hd := generated hfile hdata
  obtain ⟨typed, s, htype, h⟩ := (typingInv_initial hd).typeText hd hsound htext
  obtain ⟨typed', applied, s', hpress, hbuffer, hchars, hdue, hcorrected, -⟩ := h.press hd hsound hc
  have hsuffix : ∀ e ∈ autocorrections,
      (e.typo.map typoCode <:+ appendKeycode d.maxLength (typoCode c) s.state.typoBuffer ↔ e.typo <:+ typed') := by
    intro e he
    rw [hbuffer, suffix_typed_iff (hd.accepted.chars e he) hchars]
  refine ⟨s, applied, s', htype, hpress, ?_, fun e he hend => hcorrected e he ((hsuffix e he).mp hend)⟩
  rw [hdue]
  constructor
  · rintro ⟨e, he, hend⟩
    exact ⟨e, he, (hsuffix e he).mpr hend⟩
  · rintro ⟨e, he, hend⟩
    exact ⟨e, he, (hsuffix e he).mp hend⟩

def twoTypos : List Autocorrection :=
  [⟨[':', 't', 'h', 'i', 'e', 'r'], ['t', 'h', 'e', 'i', 'r']⟩,
    ⟨['f', 'i', 't', 'l', 'e', 'r'], ['f', 'i', 'l', 't', 'e', 'r']⟩]

def twoTyposData : AutocorrectData :=
  ⟨6, 6, [21, 8, 0, 76, 10, 0, 15, 19, 0, 0, 11, 23, 44, 0, 130, 101, 105, 114, 0, 23, 12, 9, 0, 131, 108, 116, 101,
    114, 0]⟩

theorem autocorrects_twoTypos :
    (∀ e ∈ twoTypos, Sound 6 e) ∧ CorrectsNext twoTypos twoTyposData ['a', ':', 't', 'h', 'i', 'e'] 'r' :=
  ⟨by decide +kernel, @autocorrects twoTypos twoTyposData twoTypos (by decide +kernel) (by decide +kernel)
    (by decide +kernel) ['a', ':', 't', 'h', 'i', 'e'] (List.all_eq_true.mp (by decide)) 'r' (by decide)⟩

def twoBreaks : List Autocorrection := [⟨['a', 'b', ':', ':'], ['a', 'b', 'c']⟩]

def twoBreaksData : AutocorrectData := ⟨4, 4, [44, 44, 5, 4, 0, 128, 99, 0]⟩

/-- The backspaces count one word break only, and so the text comes after the first one. -/
theorem two_word_breaks_go_wrong :
    ¬ ∀ (lines autocorrections : List Autocorrection) (d : AutocorrectData) (text : List Char) (c : Char),
      parseFile lines = some autocorrections → generateAutocorrectData lines = some d →
      (∀ c ∈ text, isTypoChar c = true) → isTypoChar c = true → CorrectsNext autocorrections d text c := by
  intro h
  obtain ⟨s, applied, s', htype, hpress, -, hcorrected⟩ := h twoBreaks twoBreaks twoBreaksData ['a', 'b', ':'] ':'
    (by decide +kernel) (by decide +kernel) (List.all_eq_true.mp (by decide)) (by decide)
  have hs : typeText twoBreaksData ['a', 'b', ':'] .initial = some ⟨⟨true, [44, 4, 5, 44]⟩, ['a', 'b', ' ']⟩ := rfl
  cases htype.symm.trans hs
  have hs' : (press twoBreaksData ':' ⟨⟨true, [44, 4, 5, 44]⟩, ['a', 'b', ' ']⟩).map (fun r => r.2.screen) =
      some ['a', 'b', ' ', 'c', ' '] := rfl
  rw [hpress, Option.map_some, Option.some.injEq] at hs'
  obtain ⟨before, hbefore, hafter⟩ := hcorrected _ List.mem_cons_self (by decide)
  rw [hs'] at hafter
  have hlength : 4 = (before ++ ['a', 'b', ' ', ' ']).length := congrArg List.length hbefore
  rw [List.length_append, List.length_cons, List.length_cons, List.length_cons, List.length_singleton] at hlength
  have hnil : before = [] := List.eq_nil_of_length_eq_zero (by omega)
  rw [hnil] at hafter
  revert hafter
  decide

end Autocorrect
end VialQmk
