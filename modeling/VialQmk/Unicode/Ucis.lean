import Mathlib.Data.List.Induction
import Mathlib.Tactic.Common

/-!
# Unicode.Ucis

The input of Unicode symbols by their names: the buffer of `ucis.c`, the keys of `process_ucis.c`, and the search for
the symbol.

* `UcisKey.enter`: what is entered, as the keys say it; `runUcis_holds`: the buffer has it, with older characters
  behind.
* `ucisFinish_terminated`: where a terminator is behind the text, the first symbol whose name begins with it is found.
* `finish_meets_iff`: and only there, whatever the table.
-/

namespace VialQmk
namespace Unicode

def kcA : Nat := 0x04
def kcZ : Nat := 0x1D
def kc1 : Nat := 0x1E
def kc9 : Nat := 0x26
def kc0 : Nat := 0x27
def kcEnter : Nat := 0x28
def kcEscape : Nat := 0x29
def kcBackspace : Nat := 0x2A
def kcSpace : Nat := 0x2C

/-- An entry of `ucis_symbol_table` before its last, with the name as a string. -/
structure UcisSymbol where
  mnemonic : List UInt8
  codePoints : List UInt32
  mnemonic_ne_zero : ∀ c ∈ mnemonic, c ≠ 0

structure UcisState (max : Nat) where
  count : Nat
  active : Bool
  input : List UInt8
  size : input.length = max

/-- A call of `ucis_start`, or an event that `process_ucis` gets. -/
inductive UcisKey where
  | start
  | key (keycode : Nat) (pressed : Bool)

inductive UcisTap where
  | backspace
  | unicode (codePoint : UInt32)

/-- `ucis_finish` reads behind the buffer, never ends, or returns with what it has tapped. -/
inductive UcisFinish where
  | outOfBounds
  | diverged
  | returned (taps : List UcisTap)

def keycodeToChar (keycode : Nat) : UInt8 :=
  if kcA ≤ keycode ∧ keycode ≤ kcZ then UInt8.ofNat (97 + (keycode - kcA))
  else if kc1 ≤ keycode ∧ keycode ≤ kc9 then UInt8.ofNat (49 + (keycode - kc1))
  else if keycode = kc0 then 48
  else 0

def IsSpecial (keycode : Nat) : Prop :=
  keycode = kcSpace ∨ keycode = kcEnter ∨ keycode = kcEscape ∨ keycode = kcBackspace
deriving Decidable

/-- The code points in front of the first 0, as `register_ucis` sends them. -/
def UcisSymbol.sent (symbol : UcisSymbol) : List UcisTap := (symbol.codePoints.takeWhile (· ≠ 0)).map .unicode

/-- The loop of `match_mnemonic` from `i` on, with what is left of both strings. Nothing when it reads behind the
buffer. -/
def matchMnemonic (count : Nat) : Nat → List UInt8 → List UInt8 → Option Bool
  | _, [], _ => none
  | i, c :: input, mnemonic =>
    if c = 0 then some true
    else if count < i ∨ c ≠ mnemonic.headD 0 then some false
    else matchMnemonic count (i + 1) input mnemonic.tail

namespace UcisState

variable {max : Nat} (s : UcisState max)

def start : UcisState max := { s with count := 0, active := true }

def add (c : UInt8) : UcisState max :=
  { s with
    count := s.count + 1
    input := s.input.set s.count c
    size := by rw [List.length_set, s.size] }

def removeLast : UcisState max := { s with count := s.count - 1 }

def cancel : UcisState max := { s with count := 0, active := false }

/-- The key is for the buffer: it is not full, or the key is no character. -/
def Handles (keycode : Nat) (pressed : Bool) : Prop :=
  (s.active = true ∧ pressed = true) ∧ ¬ (max ≤ s.count ∧ ¬ IsSpecial keycode)
deriving Decidable

/-- `process_ucis`. What `ucis_finish` taps apart, it ends the input. -/
def processUcis (keycode : Nat) (pressed : Bool) : UcisState max :=
  if s.Handles keycode pressed then
    if keycodeToChar keycode ≠ 0 then s.add (keycodeToChar keycode)
    else if keycode = kcBackspace then s.removeLast
    else if keycode = kcEscape then s.cancel
    else if keycode = kcSpace ∨ keycode = kcEnter then { s with active := false }
    else s
  else s

def searchTable : List UcisSymbol → Option (Option UcisSymbol)
  | [] => some none
  | symbol :: table =>
    match matchMnemonic s.count 0 s.input symbol.mnemonic with
    | none => none
    | some true => some (some symbol)
    | some false => searchTable table

/-- The index is a byte: it does not get to entry 256, and neither does that of the backspaces. -/
def ucisFinish (table : List UcisSymbol) : UcisFinish :=
  match s.searchTable (table.take 256) with
  | none => .outOfBounds
  | some (some symbol) =>
    if s.count < 255 then .returned (List.replicate (s.count + 1) .backspace ++ symbol.sent) else .diverged
  | some none => if table.length < 256 then .returned [] else .diverged

def step : UcisKey → UcisState max
  | .start => s.start
  | .key keycode pressed => s.processUcis keycode pressed

def Finishes : UcisKey → Prop
  | .start => False
  | .key keycode pressed => s.Handles keycode pressed ∧ (keycode = kcSpace ∨ keycode = kcEnter)

instance (key : UcisKey) : Decidable (s.Finishes key) :=
  match key with
  | .start => inferInstanceAs (Decidable False)
  | .key _ _ => inferInstanceAs (Decidable (_ ∧ _))

def storesAt : UcisKey → Option Nat
  | .start => none
  | .key keycode pressed => if s.Handles keycode pressed ∧ keycodeToChar keycode ≠ 0 then some s.count else none

end UcisState

def powerUp (max : Nat) : UcisState max where
  count := 0
  active := false
  input := List.replicate max 0
  size := List.length_replicate

def runUcis (max : Nat) (keys : List UcisKey) : UcisState max := keys.foldl UcisState.step (powerUp max)

structure Entry where
  active : Bool
  text : List UInt8

/-- Typed characters come in as long as there is room, and backspace takes the last one. -/
def UcisKey.enter (max : Nat) (e : Entry) : UcisKey → Entry
  | .start => ⟨true, []⟩
  | .key keycode pressed =>
    if e.active ∧ pressed then
      if keycodeToChar keycode ≠ 0 then
        if e.text.length < max then { e with text := e.text ++ [keycodeToChar keycode] } else e
      else if keycode = kcBackspace then { e with text := e.text.dropLast }
      else if keycode = kcEscape then ⟨false, []⟩
      else if keycode = kcSpace ∨ keycode = kcEnter then { e with active := false }
      else e
    else e

def entered (max : Nat) (keys : List UcisKey) : Entry := keys.foldl (UcisKey.enter max) ⟨false, []⟩

/-- The finish is as if the text had been typed from power-up on. A text that is a name, and does not begin an earlier
one, is taken back and the symbol sent. -/
structure FinishMeets {max : Nat} (table : List UcisSymbol) (s : UcisState max) (text : List UInt8) : Prop where
  returns : ∃ taps, s.ucisFinish table = .returned taps
  determined : ∀ keycodes : List Nat, keycodes.map keycodeToChar = text →
    s.ucisFinish table = (runUcis max (.start :: keycodes.map fun k => .key k true)).ucisFinish table
  selects : ∀ (k : Nat) (symbol : UcisSymbol), table[k]? = some symbol → symbol.mnemonic = text →
    (∀ j < k, ∀ earlier : UcisSymbol, table[j]? = some earlier → ¬ text <+: earlier.mnemonic) →
      s.ucisFinish table = .returned (List.replicate (text.length + 1) .backspace ++ symbol.sent)

/-- Whatever the symbols are, each finish is as it should be, and each character is stored inside. -/
def Meets (max : Nat) (table : List UcisSymbol) (keys : List UcisKey) : Prop :=
  ∀ older key newer, keys = older ++ key :: newer →
    (∀ i ∈ (runUcis max older).storesAt key, i < max) ∧
      ((runUcis max older).Finishes key → FinishMeets table (runUcis max older) (entered max older).text)

/-- There is nothing to search; or the buffer has a terminator behind the text, and the index gets to the end of the
table or is not needed. -/
def UcisState.Terminated {max : Nat} (s : UcisState max) (entries : Nat) : Prop :=
  entries = 0 ∨ s.input[s.count]? = some 0 ∧ (entries ≤ 255 ∨ s.count = 0)
deriving Decidable

section Buffer

variable {max : Nat} {s : UcisState max} {e : Entry} {key : UcisKey} {text rest mnemonic : List UInt8} {count : Nat}

/-- The buffer begins with the text, which has no 0 in it. -/
structure Holds (s : UcisState max) (e : Entry) : Prop where
  active_eq : s.active = e.active
  count_eq : s.count = e.text.length
  take_eq : s.input.take s.count = e.text
  ne_zero : ∀ c ∈ e.text, c ≠ 0
  count_le : s.count ≤ max

def Clean (s : UcisState max) : Prop := ∀ i, s.count ≤ i → i < max → s.input[i]? = some 0

theorem not_special_of_char {keycode : Nat} (h : keycodeToChar keycode ≠ 0) : ¬ IsSpecial keycode := by
  rintro (rfl | rfl | rfl | rfl) <;> exact h rfl

theorem count_lt_of_handles {keycode : Nat} {pressed : Bool} (h : s.Handles keycode pressed)
    (hchar : keycodeToChar keycode ≠ 0) : s.count < max := by
  by_contra hfull
  exact h.2 ⟨Nat.le_of_not_lt hfull, not_special_of_char hchar⟩

theorem Holds.add (h : Holds s e) {c : UInt8} (hc : c ≠ 0) (hlt : s.count < max) :
    Holds (s.add c) { e with text := e.text ++ [c] } where
  active_eq := h.active_eq
  count_eq := by simp [UcisState.add, h.count_eq]
  take_eq := by
    have hlen : s.count < s.input.length := by rw [s.size]; exact hlt
    change (s.input.set s.count c).take (s.count + 1) = e.text ++ [c]
    rw [List.take_succ_eq_append_getElem (by simpa using hlen), List.take_set_of_le (Nat.le_refl _), h.take_eq]
    simp
  ne_zero := by
    intro d hd
    rcases List.mem_append.mp hd with hd | hd
    · exact h.ne_zero d hd
    · rw [List.mem_singleton.mp hd]
      exact hc
  count_le := hlt

theorem Holds.removeLast (h : Holds s e) : Holds s.removeLast { e with text := e.text.dropLast } where
  active_eq := h.active_eq
  count_eq := by simp [UcisState.removeLast, h.count_eq]
  take_eq := by
    have hle : s.count ≤ s.input.length := by rw [s.size]; exact h.count_le
    change s.input.take (s.count - 1) = e.text.dropLast
    rw [← h.take_eq, List.dropLast_eq_take, List.take_take, List.length_take]
    congr 1
    omega
  ne_zero := fun c hc => h.ne_zero c ((List.dropLast_sublist e.text).mem hc)
  count_le := Nat.le_trans (Nat.sub_le _ _) h.count_le

theorem Holds.empty (active : Bool) (input : List UInt8) (hsize : input.length = max) :
    Holds (⟨0, active, input, hsize⟩ : UcisState max) ⟨active, []⟩ :=
  ⟨rfl, rfl, by simp, by simp, Nat.zero_le _⟩

theorem Holds.step (h : Holds s e) : Holds (s.step key) (key.enter max e) := by
  cases key with
  | start => exact .empty true s.input s.size
  | key keycode pressed =>
    simp only [UcisState.step, UcisState.processUcis, UcisKey.enter, ← h.active_eq]
    by_cases hactive : s.active = true ∧ pressed = true
    · rw [if_pos hactive]
      by_cases hchar : keycodeToChar keycode = 0
      · have hhandles (hspecial : IsSpecial keycode) : s.Handles keycode pressed := ⟨hactive, fun h => h.2 hspecial⟩
        simp only [hchar, ne_eq, not_true, if_false]
        by_cases hback : keycode = kcBackspace
        · rw [if_pos (hhandles (.inr (.inr (.inr hback)))), if_pos hback, if_pos hback]
          exact h.active_eq ▸ h.removeLast
        · rw [if_neg hback, if_neg hback]
          by_cases hescape : keycode = kcEscape
          · rw [if_pos (hhandles (.inr (.inr (.inl hescape)))), if_pos hescape, if_pos hescape]
            exact .empty false s.input s.size
          · rw [if_neg hescape, if_neg hescape]
            by_cases hend : keycode = kcSpace ∨ keycode = kcEnter
            · have hspecial : IsSpecial keycode := hend.elim .inl fun h => .inr (.inl h)
              rw [if_pos (hhandles hspecial), if_pos hend, if_pos hend]
              exact ⟨rfl, h.count_eq, h.take_eq, h.ne_zero, h.count_le⟩
            · rw [if_neg hend, if_neg hend]
              simpa using h
      · rw [if_pos hchar, if_pos hchar]
        by_cases hfull : s.count < max
        · have hhandles : s.Handles keycode pressed := ⟨hactive, fun h => Nat.not_le.mpr hfull h.1⟩
          rw [if_pos hhandles, if_pos (h.count_eq ▸ hfull)]
          exact h.active_eq ▸ h.add hchar hfull
        · have hhandles : ¬ s.Handles keycode pressed := fun hh => hfull (count_lt_of_handles hh hchar)
          rw [if_neg hhandles, if_neg (h.count_eq ▸ hfull)]
          exact h
    · have hhandles : ¬ s.Handles keycode pressed := fun hh => hactive hh.1
      rw [if_neg hactive, if_neg hhandles]
      exact h

theorem runUcis_holds (keys : List UcisKey) : Holds (runUcis max keys) (entered max keys) := by
  induction keys using List.reverseRecOn with
  | nil => exact .empty false _ _
  | append_singleton keys key ih =>
    simp only [runUcis, entered, List.foldl_append, List.foldl_cons, List.foldl_nil]
    exact ih.step

theorem stores_inside (keys : List UcisKey) : ∀ i ∈ (runUcis max keys).storesAt key, i < max := by
  intro i hi
  cases key with
  | start => cases hi
  | key keycode pressed =>
    simp only [UcisState.storesAt, Option.mem_def, Option.ite_none_right_eq_some, Option.some.injEq] at hi
    obtain ⟨⟨hhandles, hchar⟩, rfl⟩ := hi
    exact count_lt_of_handles hhandles hchar

theorem matchMnemonic_terminated (hne : ∀ c ∈ text, c ≠ 0) (i : Nat) (hi : i + text.length = count) :
    matchMnemonic count i (text ++ 0 :: rest) mnemonic = some (decide (text <+: mnemonic)) := by
  induction text generalizing i mnemonic with
  | nil => simp [matchMnemonic]
  | cons c text ih =>
    have hc : c ≠ 0 := hne c List.mem_cons_self
    rw [List.length_cons] at hi
    rw [List.cons_append, matchMnemonic, if_neg hc]
    cases mnemonic with
    | nil => simp [hc]
    | cons d mnemonic =>
      by_cases hcd : c = d
      · subst hcd
        have hle : ¬ count < i := by omega
        rw [if_neg (by simp [hle]), ih (fun c hc => hne c (List.mem_cons_of_mem _ hc)) (i + 1) (by omega)]
        exact congrArg some (decide_eq_decide.mpr (by simp))
      · rw [if_pos (.inr (by simpa using hcd))]
        simp [hcd]

theorem matchMnemonic_stale (hne : ∀ c ∈ text, c ≠ 0) (hrest : rest.head? ≠ some 0) (i : Nat)
    (hi : i + text.length = count) : matchMnemonic count i (text ++ rest) text ≠ some true := by
  induction text generalizing i with
  | nil =>
    cases rest with
    | nil => simp [matchMnemonic]
    | cons c rest =>
      have hc : c ≠ 0 := by simpa using hrest
      simp [matchMnemonic, hc]
  | cons c text ih =>
    have hc : c ≠ 0 := hne c List.mem_cons_self
    rw [List.length_cons] at hi
    have hle : ¬ count < i := by omega
    rw [List.cons_append, matchMnemonic, if_neg hc, if_neg (by simp [hle])]
    exact ih (fun c hc => hne c (List.mem_cons_of_mem _ hc)) (i + 1) (by omega)

theorem matchMnemonic_nil (hne : ∀ c ∈ text, c ≠ 0) (htext : text ≠ []) (i : Nat) :
    matchMnemonic count i (text ++ rest) [] = some false := by
  cases text with
  | nil => exact absurd rfl htext
  | cons c text =>
    have hc : c ≠ 0 := hne c List.mem_cons_self
    simp [matchMnemonic, hc]

theorem Holds.input_eq (h : Holds s e) : s.input = e.text ++ s.input.drop s.count := by
  rw [← h.take_eq, List.take_append_drop]

theorem Holds.terminated_eq (h : Holds s e) (hzero : s.input[s.count]? = some 0) :
    s.input = e.text ++ 0 :: s.input.drop (s.count + 1) := by
  obtain ⟨hlt, hget⟩ := List.getElem?_eq_some_iff.mp hzero
  have hdrop := List.drop_eq_getElem_cons hlt
  rw [hget] at hdrop
  rw [← hdrop]
  exact h.input_eq

theorem Holds.searchTable_terminated (h : Holds s e) (hzero : s.input[s.count]? = some 0) (table : List UcisSymbol) :
    s.searchTable table = some (table.find? fun symbol => e.text <+: symbol.mnemonic) := by
  induction table with
  | nil => rfl
  | cons symbol table ih =>
    have hmatch : matchMnemonic s.count 0 s.input symbol.mnemonic = some (decide (e.text <+: symbol.mnemonic)) := by
      rw [h.terminated_eq hzero]
      exact matchMnemonic_terminated h.ne_zero 0 (by rw [Nat.zero_add, h.count_eq])
    rw [UcisState.searchTable, hmatch, List.find?_cons]
    by_cases hstart : e.text <+: symbol.mnemonic
    · simp [hstart]
    · simp [hstart, ih]

def selected (table : List UcisSymbol) (text : List UInt8) : List UcisTap :=
  match table.find? fun symbol => text <+: symbol.mnemonic with
  | some symbol => List.replicate (text.length + 1) .backspace ++ symbol.sent
  | none => []

theorem Holds.ucisFinish_terminated (h : Holds s e) (hmax : max ≤ 255) (hzero : s.input[s.count]? = some 0)
    {table : List UcisSymbol} (htable : table.length ≤ 255 ∨ s.count = 0) :
    s.ucisFinish table = .returned (selected table e.text) := by
  have hlt : s.count < 255 := by
    obtain ⟨hlt, -⟩ := List.getElem?_eq_some_iff.mp hzero
    rw [s.size] at hlt
    omega
  have htext : e.text.length < 255 := h.count_eq ▸ hlt
  rw [UcisState.ucisFinish, h.searchTable_terminated hzero, selected]
  rcases htable with hshort | hempty
  · rw [List.take_of_length_le (by omega)]
    cases table.find? fun symbol => e.text <+: symbol.mnemonic with
    | none => simp; omega
    | some symbol => simp [h.count_eq, htext]
  · have hnil : e.text = [] := List.eq_nil_of_length_eq_zero (h.count_eq.symm.trans hempty)
    cases table with
    | nil => simp [hnil]
    | cons symbol table => simp [hnil, hempty]

theorem Clean.step_char (h : Clean s) {c : UInt8} : Clean (s.add c) := by
  intro i hi hlt
  have hne : s.count ≠ i := by
    intro heq
    simp only [UcisState.add] at hi
    omega
  change (s.input.set s.count c)[i]? = some 0
  rw [List.getElem?_set_ne hne]
  exact h i (Nat.le_of_succ_le hi) hlt

theorem typed_holds (keycodes : List Nat) (hchars : ∀ k ∈ keycodes, keycodeToChar k ≠ 0)
    (hlen : keycodes.length ≤ max) :
    Holds (runUcis max (.start :: keycodes.map fun k => .key k true)) ⟨true, keycodes.map keycodeToChar⟩ ∧
      Clean (runUcis max (.start :: keycodes.map fun k => .key k true)) := by
  induction keycodes using List.reverseRecOn with
  | nil =>
    refine ⟨.empty true _ _, fun i _ hlt => ?_⟩
    simp [runUcis, powerUp, UcisState.step, UcisState.start, hlt]
  | append_singleton keycodes k ih =>
    rw [List.length_append, List.length_singleton] at hlen
    obtain ⟨hholds, hclean⟩ := ih (fun k hk => hchars k (by simp [hk])) (by omega)
    have hchar : keycodeToChar k ≠ 0 := hchars k (by simp)
    have hlt : (runUcis max (.start :: keycodes.map fun k => .key k true)).count < max := by
      rw [hholds.count_eq, List.length_map]
      omega
    have hrun : runUcis max (.start :: (keycodes ++ [k]).map fun k => .key k true) =
        (runUcis max (.start :: keycodes.map fun k => .key k true)).add (keycodeToChar k) := by
      have hhandles : (runUcis max (.start :: keycodes.map fun k => .key k true)).Handles k true :=
        ⟨⟨hholds.active_eq, rfl⟩, fun h => Nat.not_le.mpr hlt h.1⟩
      rw [List.map_append, ← List.cons_append, runUcis, List.foldl_append]
      change (runUcis max _).processUcis k true = _
      rw [UcisState.processUcis, if_pos hhandles, if_pos hchar]
    rw [hrun, List.map_append]
    exact ⟨hholds.add hchar hlt, hclean.step_char⟩

theorem selected_of_first {table : List UcisSymbol} {k : Nat} {symbol : UcisSymbol} (hk : table[k]? = some symbol)
    (htext : symbol.mnemonic = text)
    (hfirst : ∀ j < k, ∀ earlier : UcisSymbol, table[j]? = some earlier → ¬ text <+: earlier.mnemonic) :
    selected table text = List.replicate (text.length + 1) .backspace ++ symbol.sent := by
  have hfind : table.find? (fun symbol => text <+: symbol.mnemonic) = some symbol := by
    obtain ⟨hlt, hget⟩ := List.getElem?_eq_some_iff.mp hk
    rw [List.find?_eq_some_iff_getElem]
    refine ⟨by simp [htext], k, hlt, hget, fun j hj => ?_⟩
    have hnot := hfirst j hj _ (List.getElem?_eq_getElem (Nat.lt_trans hj hlt))
    simpa using hnot
  rw [selected, hfind]

theorem ucisFinish_nil : s.ucisFinish [] = .returned [] := rfl

theorem Holds.meets_of_terminated (h : Holds s e) (hmax : max ≤ 255) {table : List UcisSymbol}
    (hs : s.Terminated table.length) : FinishMeets table s e.text := by
  rcases hs with hempty | ⟨hzero, htable⟩
  · obtain rfl := List.eq_nil_of_length_eq_zero hempty
    exact ⟨⟨[], ucisFinish_nil⟩, fun _ _ => rfl, fun k symbol hk => by simp at hk⟩
  · have hfinish := h.ucisFinish_terminated hmax hzero htable
    refine ⟨⟨_, hfinish⟩, ?_, ?_⟩
    · intro keycodes hkeycodes
      have hlt : e.text.length < max := by
        obtain ⟨hlt, -⟩ := List.getElem?_eq_some_iff.mp hzero
        rw [s.size] at hlt
        rwa [h.count_eq] at hlt
      have hlen : keycodes.length = e.text.length := by rw [← hkeycodes, List.length_map]
      have hchars : ∀ k ∈ keycodes, keycodeToChar k ≠ 0 := fun k hk => h.ne_zero _ (hkeycodes ▸ List.mem_map_of_mem hk)
      have hfits : keycodes.length ≤ max := by omega
      obtain ⟨htyped, hclean⟩ := typed_holds keycodes hchars hfits
      rw [hkeycodes] at htyped
      have htypedZero := hclean _ (Nat.le_refl _) (by rw [htyped.count_eq]; exact hlt)
      have hcount := htyped.count_eq.trans h.count_eq.symm
      rw [hfinish, htyped.ucisFinish_terminated hmax htypedZero (hcount.symm ▸ htable)]
    · intro k symbol hk htext hfirst
      rw [hfinish, selected_of_first hk htext hfirst]

theorem searchTable_of_ne {table : List UcisSymbol}
    (h : ∀ symbol ∈ table, matchMnemonic s.count 0 s.input symbol.mnemonic ≠ some true) :
    s.searchTable table = none ∨ s.searchTable table = some none := by
  induction table with
  | nil => exact .inr rfl
  | cons symbol table ih =>
    have hrest := ih fun symbol hmem => h symbol (List.mem_cons_of_mem _ hmem)
    have hne := h symbol List.mem_cons_self
    rw [UcisState.searchTable]
    cases hmatch : matchMnemonic s.count 0 s.input symbol.mnemonic with
    | none => exact .inl rfl
    | some found =>
      cases found with
      | true => exact absurd hmatch hne
      | false => exact hrest

theorem searchTable_of_false {table : List UcisSymbol}
    (h : ∀ symbol ∈ table, matchMnemonic s.count 0 s.input symbol.mnemonic = some false) :
    s.searchTable table = some none := by
  induction table with
  | nil => rfl
  | cons symbol table ih =>
    rw [UcisState.searchTable, h symbol List.mem_cons_self]
    exact ih fun symbol hmem => h symbol (List.mem_cons_of_mem _ hmem)

theorem Holds.zero_of_meets (h : Holds s e) {n : Nat} (hn : n ≠ 0)
    (hall : ∀ table : List UcisSymbol, table.length = n → FinishMeets table s e.text) :
    s.input[s.count]? = some 0 := by
  by_contra hzero
  let symbol : UcisSymbol := ⟨e.text, [], h.ne_zero⟩
  have hmeets := hall (List.replicate n symbol) List.length_replicate
  have hfound := hmeets.selects 0 symbol (by simp [Nat.pos_of_ne_zero hn]) rfl
    fun j hj => absurd hj (Nat.not_lt_zero j)
  have hstale : ∀ d ∈ (List.replicate n symbol).take 256,
      matchMnemonic s.count 0 s.input d.mnemonic ≠ some true := by
    intro d hd
    rw [List.eq_of_mem_replicate (List.mem_of_mem_take hd), h.input_eq]
    refine matchMnemonic_stale h.ne_zero ?_ 0 (by rw [Nat.zero_add, h.count_eq])
    rwa [List.head?_drop]
  rw [UcisState.ucisFinish] at hfound
  rcases searchTable_of_ne hstale with hnone | hnone
  · rw [hnone] at hfound
    cases hfound
  · rw [hnone] at hfound
    by_cases hlen : (List.replicate n symbol).length < 256
    · simp only [if_pos hlen] at hfound
      simp at hfound
    · simp only [if_neg hlen] at hfound
      cases hfound

theorem Holds.short_of_meets (h : Holds s e) {n : Nat}
    (hall : ∀ table : List UcisSymbol, table.length = n → FinishMeets table s e.text) : n ≤ 255 ∨ s.count = 0 := by
  by_contra hlong
  rw [not_or] at hlong
  let symbol : UcisSymbol := ⟨[], [], by simp⟩
  obtain ⟨taps, htaps⟩ := (hall (List.replicate n symbol) List.length_replicate).returns
  have htext : e.text ≠ [] := fun hnil => hlong.2 (by rw [h.count_eq, hnil]; rfl)
  have hfalse : ∀ d ∈ (List.replicate n symbol).take 256,
      matchMnemonic s.count 0 s.input d.mnemonic = some false := by
    intro d hd
    rw [List.eq_of_mem_replicate (List.mem_of_mem_take hd), h.input_eq]
    exact matchMnemonic_nil h.ne_zero htext 0
  rw [UcisState.ucisFinish, searchTable_of_false hfalse] at htaps
  have hlen : ¬ (List.replicate n symbol).length < 256 := by
    rw [List.length_replicate]
    omega
  simp only [if_neg hlen] at htaps
  cases htaps

theorem Holds.meets_iff (h : Holds s e) (hmax : max ≤ 255) (n : Nat) :
    (∀ table : List UcisSymbol, table.length = n → FinishMeets table s e.text) ↔ s.Terminated n := by
  constructor
  · intro hall
    by_cases hn : n = 0
    · exact .inl hn
    · exact .inr ⟨h.zero_of_meets hn hall, h.short_of_meets hall⟩
  · rintro hs table rfl
    exact h.meets_of_terminated hmax hs

end Buffer

/-- Whatever the `n` names, UCIS uses what is typed just where, at each finish, the buffer has a terminator behind the
text, and the byte that counts the symbols gets to the last one. -/
theorem finish_meets_iff {max : Nat} (hmax : max ≤ 255) (keys : List UcisKey) (n : Nat) :
    (∀ table : List UcisSymbol, table.length = n → Meets max table keys) ↔
      ∀ older key newer, keys = older ++ key :: newer → (runUcis max older).Finishes key →
        (runUcis max older).Terminated n := by
  constructor
  · intro hall older key newer hkeys hfinish
    exact ((runUcis_holds older).meets_iff hmax n).mp fun table htable => (hall table htable older key newer hkeys).2 hfinish
  · intro hall table htable older key newer hkeys
    refine ⟨stores_inside older, fun hfinish => ?_⟩
    exact ((runUcis_holds older).meets_iff hmax n).mpr (hall older key newer hkeys hfinish) table htable

def symbolA : UcisSymbol := ⟨[97], [0x3B1], by simp⟩

def symbolAC : UcisSymbol := ⟨[97, 99], [0x3B3], by simp⟩

/-- "ab" is typed, the b taken back and a c typed: the name that begins with the text is found behind a shorter one. -/
def retyped : List UcisKey :=
  [.start, .key kcA true, .key 5 true, .key kcBackspace true, .key 6 true, .key kcSpace true]

theorem finish_meets_iff_retyped : Meets 32 [symbolA, symbolAC] retyped := by
  refine (finish_meets_iff (by decide) retyped 2).mpr ?_ [symbolA, symbolAC] rfl
  intro older key newer hkeys hfinish
  have hlast : ∀ n, (hn : n < retyped.length) → (runUcis 32 (retyped.take n)).Finishes retyped[n] →
      (runUcis 32 (retyped.take n)).Terminated 2 := by decide
  have hlt : older.length < retyped.length := by
    rw [hkeys, List.length_append, List.length_cons]
    omega
  have htake : retyped.take older.length = older := by rw [hkeys, List.take_left]
  have hkey : retyped[older.length] = key := by simp [hkeys]
  have hterminated := hlast older.length hlt
  rw [htake, hkey] at hterminated
  exact hterminated hfinish

/-- "ab" is typed and the b taken back; the symbol that is named "a" is not found. -/
theorem removed_character_not_forgotten :
    ¬ ∀ table, Meets 32 table [.start, .key kcA true, .key 5 true, .key kcBackspace true, .key kcSpace true] := by
  intro h
  have hmeets := (h [symbolA] [.start, .key kcA true, .key 5 true, .key kcBackspace true] (.key kcSpace true) [] rfl).2
    ⟨by decide, .inl rfl⟩
  have hfound := hmeets.selects 0 symbolA rfl rfl fun j hj => absurd hj (Nat.not_lt_zero j)
  have hnone : (runUcis 32 [.start, .key kcA true, .key 5 true, .key kcBackspace true]).ucisFinish [symbolA] =
      .returned [] := rfl
  cases hnone.symm.trans hfound

end Unicode
end VialQmk
