import Mathlib.Data.List.Nodup
import VialQmk.Keys.Combo
import VialQmk.Lib.Bits

/-!
# Keys.ComboSteps

What the functions of `process_combo.c` do, one by one, as long as nothing that they hand on calls them again.

* `Marked`: the keys that a combo has marked in its bits.
* `applyScan_done_iff`: all keys of a combo are in the key buffer.
* `dumpKeyBuffer_quiet`: the buffer is handed on in order.
-/

namespace VialQmk
namespace Keys

variable {w : Nat}

/-! ## The keys of a combo -/

def Combo.keyIndex (combo : Combo) (keycode : Nat) : Option Nat :=
  (findKeyIndexAndCount keycode combo.keys 0 none).1

theorem findKeyIndexAndCount_snd (keycode : Nat) : ∀ (keys : List Nat) (n : Nat) (found : Option Nat),
    (findKeyIndexAndCount keycode keys n found).2 = n + keys.length := by
  intro keys
  induction keys with
  | nil => intro n found; simp [findKeyIndexAndCount]
  | cons key keys ih =>
    intro n found
    rw [findKeyIndexAndCount, ih, List.length_cons]
    omega

theorem findKeyIndexAndCount_fst {keycode : Nat} : ∀ {keys : List Nat} {n : Nat} {found : Option Nat} {i : Nat},
    (findKeyIndexAndCount keycode keys n found).1 = some i →
      found = some i ∨ n ≤ i ∧ keys[i - n]? = some keycode := by
  intro keys
  induction keys with
  | nil => intro n found i h; exact .inl h
  | cons key keys ih =>
    intro n found i h
    rw [findKeyIndexAndCount] at h
    rcases ih h with hfound | ⟨hle, hget⟩
    · split at hfound
      · cases hfound
        rename_i heq
        right
        simp [heq]
      · exact .inl hfound
    · right
      refine ⟨by omega, ?_⟩
      rw [show i - n = i - (n + 1) + 1 by omega, List.getElem?_cons_succ]
      exact hget

theorem findKeyIndexAndCount_isSome {keycode : Nat} : ∀ {keys : List Nat} {n : Nat} {found : Option Nat},
    found.isSome = true ∨ keycode ∈ keys → (findKeyIndexAndCount keycode keys n found).1.isSome = true := by
  intro keys
  induction keys with
  | nil =>
    intro n found h
    rcases h with h | h
    · exact h
    · cases h
  | cons key keys ih =>
    intro n found h
    rw [findKeyIndexAndCount]
    apply ih
    split
    · exact .inl rfl
    · rename_i hne
      rcases h with h | h
      · exact .inl h
      · exact .inr ((List.mem_cons.mp h).resolve_left hne)

theorem findKeyIndexAndCount_eq (combo : Combo) (keycode : Nat) :
    findKeyIndexAndCount keycode combo.keys 0 none = (combo.keyIndex keycode, combo.keys.length) := by
  rw [Combo.keyIndex, Prod.ext_iff]
  exact ⟨rfl, by rw [findKeyIndexAndCount_snd, Nat.zero_add]⟩

namespace Combo

variable {combo : Combo} {keycode keycode' i : Nat}

theorem getElem?_keyIndex (h : combo.keyIndex keycode = some i) : combo.keys[i]? = some keycode := by
  rcases findKeyIndexAndCount_fst h with h | ⟨-, h⟩
  · cases h
  · exact h

theorem keyIndex_lt (h : combo.keyIndex keycode = some i) : i < combo.keys.length :=
  (List.getElem?_eq_some_iff.mp (getElem?_keyIndex h)).1

theorem mem_of_keyIndex (h : combo.keyIndex keycode = some i) : keycode ∈ combo.keys :=
  List.mem_of_getElem? (getElem?_keyIndex h)

theorem keyIndex_inj (h : combo.keyIndex keycode = some i) (h' : combo.keyIndex keycode' = some i) :
    keycode = keycode' := by
  have heq := getElem?_keyIndex h
  rw [getElem?_keyIndex h'] at heq
  exact (Option.some.inj heq).symm

theorem exists_keyIndex (h : keycode ∈ combo.keys) : ∃ i, combo.keyIndex keycode = some i :=
  Option.isSome_iff_exists.mp (findKeyIndexAndCount_isSome (.inr h))

theorem keyIndex_eq_none (h : keycode ∉ combo.keys) : combo.keyIndex keycode = none := by
  cases hi : combo.keyIndex keycode with
  | none => rfl
  | some i => exact absurd (mem_of_keyIndex hi) h

/-- A combo whose keys are different and fit into the bits. -/
structure Fits (w : Nat) (combo : Combo) : Prop where
  nodup : combo.keys.Nodup
  length_le : combo.keys.length ≤ w
  nonempty : combo.keys ≠ []

/-! ## The marks -/

def Marked (combo : Combo) (state : BitVec w) (keycode : Nat) : Prop :=
  ∃ i, combo.keyIndex keycode = some i ∧ state.getLsbD i = true

def Marks (combo : Combo) (state : BitVec w) : Prop :=
  ∀ i, state.getLsbD i = true → ∃ keycode, combo.keyIndex keycode = some i

variable {state : BitVec w}

theorem Marked.mem (h : combo.Marked state keycode) : keycode ∈ combo.keys := by
  obtain ⟨i, hi, -⟩ := h
  exact mem_of_keyIndex hi

theorem not_marked_zero : ¬ combo.Marked (0 : BitVec w) keycode := by
  rintro ⟨i, -, h⟩
  simp at h

theorem marks_zero : combo.Marks (0 : BitVec w) := by
  intro i h
  simp at h

theorem marked_iff_keyNotYetReleased (h : combo.keyIndex keycode = some i) :
    combo.Marked state keycode ↔ keyNotYetReleased state i = true := by
  constructor
  · rintro ⟨j, hj, hbit⟩
    rw [h] at hj
    cases hj
    exact hbit
  · intro hbit
    exact ⟨i, h, hbit⟩

theorem marked_keyStateDown (h : combo.keyIndex keycode = some i) : combo.Marked (keyStateDown state i) keycode' ↔
      combo.Marked state keycode' ∨ keycode' = keycode ∧ i < w := by
  constructor
  · rintro ⟨j, hj, hbit⟩
    rcases (Lib.getLsbD_or_one_shiftLeft state i j).mp hbit with hbit | ⟨rfl, hlt⟩
    · exact .inl ⟨j, hj, hbit⟩
    · exact .inr ⟨keyIndex_inj hj h, hlt⟩
  · rintro (⟨j, hj, hbit⟩ | ⟨rfl, hlt⟩)
    · exact ⟨j, hj, (Lib.getLsbD_or_one_shiftLeft state i j).mpr (.inl hbit)⟩
    · exact ⟨i, h, (Lib.getLsbD_or_one_shiftLeft state i i).mpr (.inr ⟨rfl, hlt⟩)⟩

theorem marks_keyStateDown (h : combo.keyIndex keycode = some i) (hmarks : combo.Marks state) :
    combo.Marks (keyStateDown state i) := by
  intro j hbit
  rcases (Lib.getLsbD_or_one_shiftLeft state i j).mp hbit with hbit | ⟨rfl, -⟩
  · exact hmarks j hbit
  · exact ⟨keycode, h⟩

theorem marked_keyStateUp (h : combo.keyIndex keycode = some i) :
    combo.Marked (keyStateUp state i) keycode' ↔ combo.Marked state keycode' ∧ keycode' ≠ keycode := by
  constructor
  · rintro ⟨j, hj, hbit⟩
    obtain ⟨hbit, hne⟩ := (Lib.getLsbD_and_not_one_shiftLeft state i j).mp hbit
    refine ⟨⟨j, hj, hbit⟩, ?_⟩
    rintro rfl
    rw [h] at hj
    cases hj
    exact hne rfl
  · rintro ⟨⟨j, hj, hbit⟩, hne⟩
    refine ⟨j, hj, (Lib.getLsbD_and_not_one_shiftLeft state i j).mpr ⟨hbit, ?_⟩⟩
    rintro rfl
    exact hne (keyIndex_inj hj h)

theorem marks_keyStateUp (i : Nat) (hmarks : combo.Marks state) : combo.Marks (keyStateUp state i) := by
  intro j hbit
  exact hmarks j ((Lib.getLsbD_and_not_one_shiftLeft state i j).mp hbit).1

theorem keyStateUp_of_not_marked (h : combo.keyIndex keycode = some i) (hnot : ¬ combo.Marked state keycode) :
    keyStateUp state i = state := by
  apply BitVec.eq_of_getLsbD_eq
  intro j _
  rw [Bool.eq_iff_iff, keyStateUp, Lib.getLsbD_and_not_one_shiftLeft]
  constructor
  · exact fun hj => hj.1
  · intro hj
    refine ⟨hj, ?_⟩
    rintro rfl
    exact hnot ⟨j, h, hj⟩

theorem getLsbD_of_allComboKeysAreDown (h : allComboKeysAreDown state combo.keys.length = true) :
    combo.keys.length ≤ w ∧ ∀ i, state.getLsbD i = true ↔ i < combo.keys.length := by
  rw [allComboKeysAreDown, decide_eq_true_eq] at h
  exact Lib.two_pow_sub_one_eq_toNat_iff.mp h

theorem allComboKeysAreDown_iff (hmarks : combo.Marks state) (hne : combo.keys ≠ []) :
    allComboKeysAreDown state combo.keys.length = true ↔
      combo.Fits w ∧ ∀ keycode ∈ combo.keys, combo.Marked state keycode := by
  constructor
  · intro h
    obtain ⟨hle, hbits⟩ := getLsbD_of_allComboKeysAreDown h
    refine ⟨⟨?_, hle, hne⟩, ?_⟩
    · refine List.nodup_iff_injective_get.mpr ?_
      intro a b hab
      obtain ⟨ka, hka⟩ := hmarks a.val ((hbits a.val).mpr a.isLt)
      obtain ⟨kb, hkb⟩ := hmarks b.val ((hbits b.val).mpr b.isLt)
      have hga := getElem?_keyIndex hka
      have hgb := getElem?_keyIndex hkb
      rw [List.getElem?_eq_getElem a.isLt, Option.some_inj] at hga
      rw [List.getElem?_eq_getElem b.isLt, Option.some_inj] at hgb
      rw [List.get_eq_getElem, List.get_eq_getElem, hga, hgb] at hab
      rw [hab, hkb] at hka
      exact Fin.ext (Option.some.inj hka).symm
    · intro keycode hmem
      obtain ⟨i, hi⟩ := exists_keyIndex hmem
      exact ⟨i, hi, (hbits i).mpr (keyIndex_lt hi)⟩
  · rintro ⟨hfits, hall⟩
    rw [allComboKeysAreDown, decide_eq_true_eq]
    refine Lib.two_pow_sub_one_eq_toNat_iff.mpr ⟨hfits.length_le, fun i => ⟨fun hbit => ?_, fun hlt => ?_⟩⟩
    · obtain ⟨keycode, hi⟩ := hmarks i hbit
      exact keyIndex_lt hi
    · obtain ⟨j, hj, hbit⟩ := hall combo.keys[i] (List.getElem_mem hlt)
      have hget := getElem?_keyIndex hj
      rw [List.getElem?_eq_some_iff] at hget
      obtain ⟨hlt', hget⟩ := hget
      rw [← hfits.nodup.getElem_inj_iff.mp hget]
      exact hbit

theorem not_marked_of_onlyOneKeyIsDown (h : combo.keyIndex keycode = some i) (hmarked : combo.Marked state keycode)
    (hone : onlyOneKeyIsDown state = true) : ∀ keycode', combo.Marked state keycode' → keycode' = keycode := by
  rintro keycode' ⟨j, hj, hbit⟩
  rw [marked_iff_keyNotYetReleased h] at hmarked
  rw [onlyOneKeyIsDown, decide_eq_true_eq] at hone
  rw [Lib.eq_of_and_sub_one hone hbit hmarked] at hj
  exact keyIndex_inj hj h

theorem exists_marked_of_not_onlyOneKeyIsDown (hmarks : combo.Marks state) (h : combo.keyIndex keycode = some i)
    (hmarked : combo.Marked state keycode) (hone : onlyOneKeyIsDown state = false) :
    ∃ keycode', combo.Marked state keycode' ∧ keycode' ≠ keycode := by
  rw [marked_iff_keyNotYetReleased h] at hmarked
  by_contra hnone
  rw [onlyOneKeyIsDown, decide_eq_false_iff_not] at hone
  refine hone (Lib.and_sub_one_of_unique hmarked fun j hbit => ?_)
  obtain ⟨keycode', hj⟩ := hmarks j hbit
  by_cases heq : keycode' = keycode
  · rw [heq, h] at hj
    exact (Option.some.inj hj).symm
  · exact absurd ⟨keycode', ⟨j, hj, hbit⟩, heq⟩ hnone

end Combo

/-! ## The loop of `apply_combo` -/

def keycodesIn (buffer : List QueuedRecord) : List Nat := buffer.map QueuedRecord.keycode

def combosIn (buffer : List QueuedRecord) : List Nat := buffer.filterMap QueuedRecord.comboIndex

def QueuedRecord.Plain (q : QueuedRecord) : Prop := q.comboIndex = none ∧ q.record.event.type ≠ .tick
deriving Decidable

def plainIn (buffer : List QueuedRecord) : List QueuedRecord := buffer.filter fun q => decide q.Plain

section

variable {combo : Combo} {index : Nat}

theorem applyScan_skip {q : QueuedRecord} (h : q.keycode ∉ combo.keys) (state : BitVec w)
    (buffer : List QueuedRecord) : applyScan combo index state (q :: buffer) =
      (q :: (applyScan combo index state buffer).1, (applyScan combo index state buffer).2) := by
  rw [applyScan, findKeyIndexAndCount_eq, Combo.keyIndex_eq_none h]

theorem applyScan_last {q : QueuedRecord} {keyIndex : Nat} (h : combo.keyIndex q.keycode = some keyIndex)
    {state : BitVec w} (hall : allComboKeysAreDown (keyStateDown state keyIndex) combo.keys.length = true)
    (buffer : List QueuedRecord) : applyScan combo index state (q :: buffer) =
      (q.apply index combo.keycode :: buffer, [q], true) := by
  rw [applyScan, findKeyIndexAndCount_eq, h]
  exact if_pos hall

theorem applyScan_part {q : QueuedRecord} {keyIndex : Nat} (h : combo.keyIndex q.keycode = some keyIndex)
    {state : BitVec w} (hall : ¬ allComboKeysAreDown (keyStateDown state keyIndex) combo.keys.length = true)
    (buffer : List QueuedRecord) : applyScan combo index state (q :: buffer) =
      (q.disable :: (applyScan combo index (keyStateDown state keyIndex) buffer).1,
        q :: (applyScan combo index (keyStateDown state keyIndex) buffer).2.1,
        (applyScan combo index (keyStateDown state keyIndex) buffer).2.2) := by
  rw [applyScan, findKeyIndexAndCount_eq, h]
  exact if_neg hall

theorem applyScan_keycodesIn : ∀ (buffer : List QueuedRecord) (state : BitVec w),
    keycodesIn (applyScan combo index state buffer).1 = keycodesIn buffer := by
  intro buffer
  induction buffer with
  | nil => intro state; rfl
  | cons q buffer ih =>
    intro state
    by_cases hmem : q.keycode ∈ combo.keys
    · obtain ⟨keyIndex, hkey⟩ := Combo.exists_keyIndex hmem
      by_cases hall : allComboKeysAreDown (keyStateDown state keyIndex) combo.keys.length = true
      · rw [applyScan_last hkey hall]
        rfl
      · rw [applyScan_part hkey hall]
        exact congrArg (q.keycode :: ·) (ih _)
    · rw [applyScan_skip hmem]
      exact congrArg (q.keycode :: ·) (ih _)

theorem applyScan_done_iff (hne : combo.keys ≠ []) : ∀ (buffer : List QueuedRecord) {state : BitVec w},
    combo.Marks state → ¬ allComboKeysAreDown state combo.keys.length = true →
      ((applyScan combo index state buffer).2.2 = true ↔
        combo.Fits w ∧ ∀ keycode ∈ combo.keys, combo.Marked state keycode ∨ keycode ∈ keycodesIn buffer) := by
  intro buffer
  induction buffer with
  | nil =>
    intro state hmarks hnot
    rw [Combo.allComboKeysAreDown_iff hmarks hne] at hnot
    simp only [applyScan, keycodesIn, List.map_nil, List.not_mem_nil, or_false, Bool.false_eq_true, false_iff]
    exact hnot
  | cons q buffer ih =>
    intro state hmarks hnot
    by_cases hmem : q.keycode ∈ combo.keys
    · obtain ⟨keyIndex, hkey⟩ := Combo.exists_keyIndex hmem
      have hmarks' := Combo.marks_keyStateDown hkey hmarks
      have hmarked : combo.Fits w → ∀ keycode, combo.Marked (keyStateDown state keyIndex) keycode ↔
          combo.Marked state keycode ∨ keycode = q.keycode := by
        intro hfits keycode
        rw [Combo.marked_keyStateDown hkey]
        have hlt := Nat.lt_of_lt_of_le (Combo.keyIndex_lt hkey) hfits.length_le
        simp [hlt]
      by_cases hall : allComboKeysAreDown (keyStateDown state keyIndex) combo.keys.length = true
      · rw [applyScan_last hkey hall]
        obtain ⟨hfits, hdown⟩ := (Combo.allComboKeysAreDown_iff hmarks' hne).mp hall
        refine iff_of_true rfl ⟨hfits, fun keycode hkeycode => ?_⟩
        refine ((hmarked hfits keycode).mp (hdown keycode hkeycode)).imp_right fun h => ?_
        rw [h]
        exact List.mem_cons_self
      · rw [applyScan_part hkey hall]
        refine (ih hmarks' hall).trans (and_congr_right fun hfits => ?_)
        simp only [hmarked hfits, keycodesIn, List.map_cons, List.mem_cons, or_assoc]
    · rw [applyScan_skip hmem]
      refine (ih hmarks hnot).trans (and_congr_right fun _ => forall₂_congr fun keycode hkeycode => ?_)
      have hne : keycode ≠ q.keycode := fun h => hmem (h ▸ hkeycode)
      simp [keycodesIn, hne]

theorem mem_applyScan_taken : ∀ (buffer : List QueuedRecord) {state : BitVec w} {q : QueuedRecord},
    q ∈ (applyScan combo index state buffer).2.1 → q ∈ buffer ∧ q.keycode ∈ combo.keys := by
  intro buffer
  induction buffer with
  | nil => intro state q h; cases h
  | cons q₀ buffer ih =>
    intro state q h
    by_cases hmem : q₀.keycode ∈ combo.keys
    · obtain ⟨keyIndex, hkey⟩ := Combo.exists_keyIndex hmem
      by_cases hall : allComboKeysAreDown (keyStateDown state keyIndex) combo.keys.length = true
      · rw [applyScan_last hkey hall, List.mem_singleton] at h
        rw [h]
        exact ⟨List.mem_cons_self, hmem⟩
      · rw [applyScan_part hkey hall] at h
        rcases List.mem_cons.mp h with rfl | h
        · exact ⟨List.mem_cons_self, hmem⟩
        · exact ⟨List.mem_cons_of_mem _ (ih h).1, (ih h).2⟩
    · rw [applyScan_skip hmem] at h
      exact ⟨List.mem_cons_of_mem _ (ih h).1, (ih h).2⟩

theorem applyScan_taken_of_done : ∀ (buffer : List QueuedRecord) {state : BitVec w},
    combo.keys ≠ [] → combo.Marks state → (applyScan combo index state buffer).2.2 = true →
      ∀ keycode ∈ combo.keys, combo.Marked state keycode ∨
        keycode ∈ keycodesIn (applyScan combo index state buffer).2.1 := by
  intro buffer
  induction buffer with
  | nil => intro state _ _ h; cases h
  | cons q buffer ih =>
    intro state hne hmarks h keycode hkeycode
    by_cases hmem : q.keycode ∈ combo.keys
    · obtain ⟨keyIndex, hkey⟩ := Combo.exists_keyIndex hmem
      have hmarks' := Combo.marks_keyStateDown hkey hmarks
      have hdown : combo.Marked (keyStateDown state keyIndex) keycode →
          combo.Marked state keycode ∨ keycode = q.keycode := fun h =>
        ((Combo.marked_keyStateDown hkey).mp h).imp_right And.left
      by_cases hall : allComboKeysAreDown (keyStateDown state keyIndex) combo.keys.length = true
      · rw [applyScan_last hkey hall]
        refine (hdown (((Combo.allComboKeysAreDown_iff hmarks' hne).mp hall).2 keycode hkeycode)).imp_right ?_
        rintro rfl
        exact List.mem_cons_self
      · rw [applyScan_part hkey hall] at h ⊢
        rcases ih hne hmarks' h keycode hkeycode with hmarked | hin
        · refine (hdown hmarked).imp_right ?_
          rintro rfl
          exact List.mem_cons_self
        · exact .inr (List.mem_cons_of_mem _ hin)
    · rw [applyScan_skip hmem] at h ⊢
      exact ih hne hmarks h keycode hkeycode

theorem mem_applyScan_fst : ∀ (buffer : List QueuedRecord) {state : BitVec w} {q' : QueuedRecord},
    q' ∈ (applyScan combo index state buffer).1 → q' ∈ buffer ∨ ∃ q ∈ buffer, q.keycode ∈ combo.keys ∧
      (q' = q.disable ∨ (applyScan combo index state buffer).2.2 = true ∧ q' = q.apply index combo.keycode) := by
  intro buffer
  induction buffer with
  | nil => intro state q' h; cases h
  | cons q buffer ih =>
    intro state q' h
    have hrest : ∀ {state : BitVec w}, q' ∈ (applyScan combo index state buffer).1 →
        q' ∈ q :: buffer ∨ ∃ q₁ ∈ q :: buffer, q₁.keycode ∈ combo.keys ∧ (q' = q₁.disable ∨
          (applyScan combo index state buffer).2.2 = true ∧ q' = q₁.apply index combo.keycode) := by
      intro state h
      rcases ih h with h | ⟨q₁, hq₁, hrest⟩
      · exact .inl (List.mem_cons_of_mem _ h)
      · exact .inr ⟨q₁, List.mem_cons_of_mem _ hq₁, hrest⟩
    by_cases hmem : q.keycode ∈ combo.keys
    · obtain ⟨keyIndex, hkey⟩ := Combo.exists_keyIndex hmem
      by_cases hall : allComboKeysAreDown (keyStateDown state keyIndex) combo.keys.length = true
      · rw [applyScan_last hkey hall] at h ⊢
        rcases List.mem_cons.mp h with h | h
        · exact .inr ⟨q, List.mem_cons_self, hmem, .inr ⟨rfl, h⟩⟩
        · exact .inl (List.mem_cons_of_mem _ h)
      · rw [applyScan_part hkey hall] at h ⊢
        rcases List.mem_cons.mp h with h | h
        · exact .inr ⟨q, List.mem_cons_self, hmem, .inl h⟩
        · exact hrest h
    · rw [applyScan_skip hmem] at h ⊢
      rcases List.mem_cons.mp h with h | h
      · exact .inl (h ▸ List.mem_cons_self)
      · exact hrest h

theorem applyScan_combosIn : ∀ (buffer : List QueuedRecord) {state : BitVec w},
    (∀ q ∈ buffer, q.keycode ∈ combo.keys → q.comboIndex = none) →
      (combosIn (applyScan combo index state buffer).1).Perm
        ((if (applyScan combo index state buffer).2.2 = true then [index] else []) ++ combosIn buffer) := by
  intro buffer
  induction buffer with
  | nil => intro state _; exact .refl _
  | cons q buffer ih =>
    intro state h
    have hrest : ∀ q ∈ buffer, q.keycode ∈ combo.keys → q.comboIndex = none :=
      fun q hq => h q (List.mem_cons_of_mem _ hq)
    by_cases hmem : q.keycode ∈ combo.keys
    · have hq := h q List.mem_cons_self hmem
      have hskip : combosIn (q :: buffer) = combosIn buffer := by simp [combosIn, hq]
      obtain ⟨keyIndex, hkey⟩ := Combo.exists_keyIndex hmem
      by_cases hall : allComboKeysAreDown (keyStateDown state keyIndex) combo.keys.length = true
      · rw [applyScan_last hkey hall, hskip]
        exact .refl _
      · rw [applyScan_part hkey hall, hskip]
        have hdisable : ∀ rest, combosIn (q.disable :: rest) = combosIn rest := by
          intro rest
          simp [combosIn, QueuedRecord.disable, hq]
        rw [hdisable]
        exact ih hrest
    · rw [applyScan_skip hmem]
      cases hq : q.comboIndex with
      | none =>
        have hskip : ∀ rest, combosIn (q :: rest) = combosIn rest := by
          intro rest
          simp [combosIn, hq]
        rw [hskip, hskip]
        exact ih hrest
      | some other =>
        have hskip : ∀ rest, combosIn (q :: rest) = other :: combosIn rest := by
          intro rest
          simp [combosIn, hq]
        rw [hskip, hskip]
        exact ((ih hrest).cons other).trans (List.perm_middle.symm)

theorem applyScan_plainIn : ∀ (buffer : List QueuedRecord) {state : BitVec w},
    (∀ q ∈ buffer, q.keycode ∈ combo.keys → q.Plain) →
      ((applyScan combo index state buffer).2.1 ++ plainIn (applyScan combo index state buffer).1).Perm
        (plainIn buffer) := by
  intro buffer
  induction buffer with
  | nil => intro state _; exact .refl _
  | cons q buffer ih =>
    intro state h
    have hrest : ∀ q ∈ buffer, q.keycode ∈ combo.keys → q.Plain := fun q hq => h q (List.mem_cons_of_mem _ hq)
    by_cases hmem : q.keycode ∈ combo.keys
    · have hq := h q List.mem_cons_self hmem
      have hkeep : plainIn (q :: buffer) = q :: plainIn buffer := by simp [plainIn, hq]
      obtain ⟨keyIndex, hkey⟩ := Combo.exists_keyIndex hmem
      by_cases hall : allComboKeysAreDown (keyStateDown state keyIndex) combo.keys.length = true
      · rw [applyScan_last hkey hall, hkeep]
        simp [plainIn, QueuedRecord.Plain, QueuedRecord.apply]
      · rw [applyScan_part hkey hall, hkeep]
        have hdisable : ∀ rest, plainIn (q.disable :: rest) = plainIn rest := by
          intro rest
          simp [plainIn, QueuedRecord.Plain, QueuedRecord.disable]
        rw [hdisable]
        exact (ih hrest).cons q
    · rw [applyScan_skip hmem]
      by_cases hq : q.Plain
      · have hkeep : ∀ rest, plainIn (q :: rest) = q :: plainIn rest := by
          intro rest
          simp [plainIn, hq]
        rw [hkeep, hkeep]
        exact List.perm_middle.trans ((ih hrest).cons q)
      · have hskip : ∀ rest, plainIn (q :: rest) = plainIn rest := by
          intro rest
          simp [plainIn, hq]
        rw [hskip, hskip]
        exact ih hrest

end

/-! ## Emptying the key buffer -/

def Quiet (handOn : ComboEntry → ComboState w → ComboState w) : Prop := ∀ e s, handOn e s = s.write e

def onlyLogged (e : ComboEntry) (s : ComboState w) : ComboState w := s.write e

theorem quiet_onlyLogged : Quiet (onlyLogged (w := w)) := fun _ _ => rfl

def callsIn (buffer : List QueuedRecord) : List ComboEntry :=
  (buffer.filter fun q => decide (q.record.event.type ≠ .tick)).map QueuedRecord.call

theorem callsIn_cons (q : QueuedRecord) (buffer : List QueuedRecord) :
    callsIn (q :: buffer) = (if q.record.event.type = .tick then [] else [q.call]) ++ callsIn buffer := by
  by_cases h : q.record.event.type = .tick <;> simp [callsIn, h]

theorem drop_modify_succ {α : Type} (f : α → α) :
    ∀ (l : List α) (i : Nat), (l.modify i f).drop (i + 1) = l.drop (i + 1) := by
  intro l
  induction l with
  | nil => intro i; simp
  | cons a l ih =>
    intro i
    cases i with
    | zero => simp
    | succ i => simpa using ih i

theorem dumpLoop_quiet {handOn : ComboEntry → ComboState w → ComboState w} (hquiet : Quiet handOn) :
    ∀ (rounds i : Nat) (s : ComboState w), s.keyBuffer.length ≤ i + rounds →
      { dumpLoop handOn rounds i s with keyBuffer := [], keyBufferNext := 0 } =
        { s with keyBuffer := [], keyBufferNext := 0, log := s.log ++ callsIn (s.keyBuffer.drop i) } := by
  intro rounds
  induction rounds with
  | zero =>
    intro i s h
    rw [List.drop_eq_nil_of_le (by omega)]
    simp [dumpLoop, callsIn]
  | succ rounds ih =>
    intro i s h
    rw [dumpLoop]
    split
    · rename_i hget
      rw [List.drop_eq_nil_of_le (List.getElem?_eq_none_iff.mp hget)]
      simp [callsIn]
    · rename_i q hget
      obtain ⟨hlt, hq⟩ := List.getElem?_eq_some_iff.mp hget
      rw [List.drop_eq_getElem_cons hlt, hq, callsIn_cons]
      by_cases htick : q.record.event.type = .tick
      · simp only [htick, ↓reduceIte, List.nil_append]
        rw [ih]
        simp only
        omega
      · simp only [htick, ↓reduceIte, hquiet _ _]
        rw [ih]
        · simp [ComboState.write, drop_modify_succ]
        · simp only [ComboState.write, List.length_modify]
          omega

theorem dumpKeyBuffer_quiet {cfg : ComboConfig} {handOn : ComboEntry → ComboState w → ComboState w}
    (hquiet : Quiet handOn) {s : ComboState w} (hnext : s.keyBufferNext = 0)
    (hlength : s.keyBuffer.length ≤ cfg.keyBufferLength) :
    dumpKeyBuffer cfg handOn s = { s with keyBuffer := [], log := s.log ++ callsIn s.keyBuffer } := by
  rw [dumpKeyBuffer]
  split
  · rename_i h
    rw [h]
    simp only [callsIn, List.filter_nil, List.map_nil, List.append_nil]
    rw [← h]
  · rw [hnext, dumpLoop_quiet hquiet _ _ _ (by omega)]
    rw [List.drop_zero, ← hnext]

/-! ## The ring -/

section

variable {cfg : ComboConfig} {index : Nat}

def Shares (cfg : ComboConfig) (a b : Nat) : Prop := ∃ key, key ∈ (cfg.combo a).keys ∧ key ∈ (cfg.combo b).keys

theorem Shares.symm {a b : Nat} (h : Shares cfg a b) : Shares cfg b a := by
  obtain ⟨key, ha, hb⟩ := h
  exact ⟨key, hb, ha⟩

theorem overlaps_eq_none {a b : Nat} : overlaps cfg a b = none ↔ ¬ Shares cfg a b := by
  rw [overlaps]
  by_cases h : (cfg.combo a).keys.any (fun key => decide (key ∈ (cfg.combo b).keys)) = true
  · rw [if_pos h]
    obtain ⟨key, hkey, hmem⟩ := List.any_eq_true.mp h
    have hshares : Shares cfg a b := ⟨key, hkey, of_decide_eq_true hmem⟩
    split <;> simp [hshares]
  · rw [if_neg h]
    refine iff_of_true rfl ?_
    rintro ⟨key, hkey, hmem⟩
    exact h (List.any_eq_true.mpr ⟨key, hkey, decide_eq_true hmem⟩)

theorem overlaps_eq_some {a b drop : Nat} (h : overlaps cfg a b = some drop) : drop = a ∨ drop = b := by
  rw [overlaps] at h
  split at h
  · split at h <;> cases h
    · exact .inr rfl
    · exact .inl rfl
  · cases h

structure Disables (s s' : ComboState w) : Prop where
  active : ∀ i, (s'.flags i).active = (s.flags i).active
  state : ∀ i, (s'.flags i).state = (s.flags i).state
  disabled : ∀ i, (s.flags i).disabled = true → (s'.flags i).disabled = true

theorem Disables.refl (s : ComboState w) : Disables s s := ⟨fun _ => rfl, fun _ => rfl, fun _ => id⟩

theorem Disables.trans {s₁ s₂ s₃ : ComboState w} (h : Disables s₁ s₂) (h' : Disables s₂ s₃) : Disables s₁ s₃ :=
  ⟨fun i => (h'.active i).trans (h.active i), fun i => (h'.state i).trans (h.state i),
    fun i hi => h'.disabled i (h.disabled i hi)⟩

@[simp]
theorem modifyFlags_same (s : ComboState w) (index : Nat) (f : ComboFlags w → ComboFlags w) :
    (s.modifyFlags index f).flags index = f (s.flags index) := if_pos rfl

theorem modifyFlags_other {i : Nat} (h : i ≠ index) (s : ComboState w) (f : ComboFlags w → ComboFlags w) :
    (s.modifyFlags index f).flags i = s.flags i := if_neg h

theorem modifyFlags_disable (s : ComboState w) (index i : Nat) :
    (s.modifyFlags index .disable).flags i = s.flags i ∨
      (s.modifyFlags index .disable).flags i = (s.flags i).disable := by
  by_cases h : i = index
  · subst h
    exact .inr (modifyFlags_same s i .disable)
  · exact .inl (modifyFlags_other h s .disable)

theorem disables_modifyFlags (s : ComboState w) (index : Nat) : Disables s (s.modifyFlags index .disable) := by
  constructor
  · intro i
    rcases modifyFlags_disable s index i with heq | heq <;> rw [heq]
    rfl
  · intro i
    rcases modifyFlags_disable s index i with heq | heq <;> rw [heq]
    rfl
  · intro i hi
    rcases modifyFlags_disable s index i with heq | heq <;> rw [heq]
    · exact hi
    · rfl

structure DroppedOverlaps (cfg : ComboConfig) (index : Nat) (entries : List Nat) (s : ComboState w)
    (result : Bool × ComboState w) : Prop where
  frame : result.2 = { s with flags := result.2.flags, comboBuffer := result.2.comboBuffer }
  disables : Disables s result.2
  sublist : result.2.comboBuffer.Sublist entries
  dropped : result.1 = true → (result.2.flags index).disabled = true
  cleared : result.1 = false → ∀ b ∈ result.2.comboBuffer, Shares cfg b index →
    b ≠ index ∧ (result.2.flags b).disabled = true

theorem dropOverlaps_spec : ∀ (rest kept : List Nat) (s : ComboState w),
    (∀ b ∈ kept, Shares cfg b index → b ≠ index ∧ (s.flags b).disabled = true) →
      DroppedOverlaps cfg index (kept ++ rest) s (dropOverlaps cfg index kept rest s) := by
  intro rest
  induction rest with
  | nil =>
    intro kept s hkept
    rw [dropOverlaps, List.append_nil]
    exact ⟨rfl, ⟨fun _ => rfl, fun _ => rfl, fun _ => id⟩, .refl _, (fun h => by cases h), fun _ => hkept⟩
  | cons buffered rest ih =>
    intro kept s hkept
    rw [dropOverlaps]
    split
    · rename_i hnone
      rw [List.append_cons]
      refine ih (kept ++ [buffered]) s fun b hb hshares => ?_
      rcases List.mem_append.mp hb with hb | hb
      · exact hkept b hb hshares
      · rw [List.mem_singleton.mp hb] at hshares
        exact absurd hshares (overlaps_eq_none.mp hnone)
    · rename_i drop hsome
      have hdisables := disables_modifyFlags s drop
      by_cases hdrop : drop = index
      · simp only [hdrop, ↓reduceIte]
        refine ⟨rfl, ?_, .refl _, fun _ => ?_, fun h => by cases h⟩
        · rw [← hdrop]
          exact ⟨hdisables.active, hdisables.state, hdisables.disabled⟩
        · simp [ComboState.modifyFlags, ComboFlags.disable]
      · have hbuffered : drop = buffered := (overlaps_eq_some hsome).resolve_right hdrop
        subst hbuffered
        have hkept' : ∀ b ∈ kept, Shares cfg b index →
            b ≠ index ∧ ((s.modifyFlags drop .disable).flags b).disabled = true := fun b hb hshares =>
          ⟨(hkept b hb hshares).1, hdisables.disabled b (hkept b hb hshares).2⟩
        simp only [hdrop, ↓reduceIte]
        by_cases hfirst : kept = []
        · subst hfirst
          simp only [↓reduceIte]
          have hspec := ih [] (s.modifyFlags drop .disable) (fun b hb => by cases hb)
          exact ⟨hspec.frame.trans rfl, hdisables.trans hspec.disables, hspec.sublist.cons _, hspec.dropped,
            hspec.cleared⟩
        · simp only [hfirst, ↓reduceIte]
          have hspec := ih (kept ++ [drop]) (s.modifyFlags drop .disable) fun b hb hshares => by
            rcases List.mem_append.mp hb with hb | hb
            · exact hkept' b hb hshares
            · rw [List.mem_singleton.mp hb, modifyFlags_same]
              exact ⟨hdrop, rfl⟩
          rw [List.append_cons]
          exact ⟨hspec.frame.trans rfl, hdisables.trans hspec.disables, hspec.sublist, hspec.dropped, hspec.cleared⟩

/-! ## The press of a combo key -/

/-- What the press of a key of an inactive combo leaves. -/
structure KeyPressed (cfg : ComboConfig) (index keyIndex keyCount : Nat) (s s' : ComboState w) : Prop where
  frame : s' = { s with flags := s'.flags, comboBuffer := s'.comboBuffer, longestTerm := s'.longestTerm }
  active : ∀ i, (s'.flags i).active = (s.flags i).active
  state_other : ∀ i, i ≠ index → (s'.flags i).state = (s.flags i).state
  state_same : (s'.flags index).state = keyStateDown (s.flags index).state keyIndex
  disabled : ∀ i, (s.flags i).disabled = true → (s'.flags i).disabled = true
  ring : s'.comboBuffer.Sublist s.comboBuffer ∨
    allComboKeysAreDown (s'.flags index).state keyCount = true ∧ ∃ kept, kept.Sublist s.comboBuffer ∧
      s'.comboBuffer = kept ++ [index] ∧
      ∀ b ∈ kept, Shares cfg b index → b ≠ index ∧ (s'.flags b).disabled = true
  prepared : allComboKeysAreDown (s'.flags index).state keyCount = true →
    index ∈ s'.comboBuffer → (s'.flags index).disabled = true ∨
      ∀ b ∈ s'.comboBuffer, Shares cfg b index → b = index ∨ (s'.flags b).disabled = true

theorem KeyPressed.undisabled {cfg : ComboConfig} {index keyIndex keyCount i : Nat} {s s' : ComboState w}
    (h : KeyPressed cfg index keyIndex keyCount s s') (hi : (s'.flags i).disabled = false) :
    (s.flags i).disabled = false := by
  rw [← Bool.not_eq_true]
  intro htrue
  rw [h.disabled i htrue] at hi
  cases hi

structure KeyMarked (index keyIndex : Nat) (s s₁ : ComboState w) : Prop where
  frame : s₁ = { s with flags := s₁.flags, longestTerm := s₁.longestTerm }
  same : s₁.flags index = (s.flags index).keyDown keyIndex
  other : ∀ i, i ≠ index → s₁.flags i = s.flags i

theorem keyMarked_keyDown (s : ComboState w) (index keyIndex longestTerm : Nat) :
    KeyMarked index keyIndex s { s.modifyFlags index (.keyDown keyIndex) with longestTerm := longestTerm } :=
  ⟨rfl, modifyFlags_same s index _, fun _ hi => modifyFlags_other hi s _⟩

namespace KeyMarked

variable {keyIndex keyCount : Nat} {s s₁ s' : ComboState w}

theorem active (h : KeyMarked index keyIndex s s₁) (i : Nat) : (s₁.flags i).active = (s.flags i).active := by
  by_cases hi : i = index
  · rw [hi, h.same]
    rfl
  · rw [h.other i hi]

theorem disabled {i : Nat} (h : KeyMarked index keyIndex s s₁) (hi : (s.flags i).disabled = true) :
    (s₁.flags i).disabled = true := by
  by_cases heq : i = index
  · rw [heq] at hi
    rw [heq, h.same]
    exact hi
  · rw [h.other i heq]
    exact hi

theorem comboBuffer_eq (h : KeyMarked index keyIndex s s₁) : s₁.comboBuffer = s.comboBuffer := by rw [h.frame]

theorem pressed (h : KeyMarked index keyIndex s s₁)
    (hframe : s' = { s₁ with flags := s'.flags, comboBuffer := s'.comboBuffer }) (hdis : Disables s₁ s')
    (hring : s'.comboBuffer.Sublist s.comboBuffer ∨
      allComboKeysAreDown (s'.flags index).state keyCount = true ∧ ∃ kept, kept.Sublist s.comboBuffer ∧
        s'.comboBuffer = kept ++ [index] ∧
        ∀ b ∈ kept, Shares cfg b index → b ≠ index ∧ (s'.flags b).disabled = true)
    (hprepared : allComboKeysAreDown (s'.flags index).state keyCount = true → index ∈ s'.comboBuffer →
      (s'.flags index).disabled = true ∨
        ∀ b ∈ s'.comboBuffer, Shares cfg b index → b = index ∨ (s'.flags b).disabled = true) :
    KeyPressed cfg index keyIndex keyCount s s' := by
  refine ⟨?_, fun i => (hdis.active i).trans (h.active i), fun i hi => ?_, ?_,
    fun i hi => hdis.disabled i (h.disabled hi), hring, hprepared⟩
  · rw [h.frame] at hframe
    rw [hframe]
  · rw [hdis.state, h.other i hi]
  · rw [hdis.state, h.same]
    rfl

/-- A combo that is fully pressed drops those that it overlaps, and is prepared unless it is dropped itself. -/
theorem prepare (h : KeyMarked index keyIndex s s₁)
    (hall : allComboKeysAreDown (s₁.flags index).state keyCount = true) {dropped : Bool} {s₂ : ComboState w}
    (hspec : DroppedOverlaps cfg index s₁.comboBuffer s₁ (dropped, s₂)) :
    KeyPressed cfg index keyIndex keyCount s (if dropped = true then s₂ else pushCombo cfg index s₂) := by
  have hsub : s₂.comboBuffer.Sublist s.comboBuffer := h.comboBuffer_eq ▸ hspec.sublist
  cases dropped with
  | true => exact h.pressed hspec.frame hspec.disables (.inl hsub) fun _ _ => .inl (hspec.dropped rfl)
  | false =>
    have hcleared := hspec.cleared rfl
    have hall₂ : allComboKeysAreDown (s₂.flags index).state keyCount = true := by
      rw [hspec.disables.state]
      exact hall
    have hframe : s₂ = { s₁ with flags := s₂.flags, comboBuffer := s₂.comboBuffer } := hspec.frame
    show KeyPressed cfg index keyIndex keyCount s (pushCombo cfg index s₂)
    refine h.pressed ?_ ⟨hspec.disables.active, hspec.disables.state, hspec.disables.disabled⟩ ?_ ?_
    · exact congrArg (fun t : ComboState w => { t with comboBuffer := (pushCombo cfg index s₂).comboBuffer }) hframe
    · simp only [pushCombo]
      split
      · exact .inl (List.nil_sublist _)
      · exact .inr ⟨hall₂, s₂.comboBuffer, hsub, rfl, hcleared⟩
    · intro _ _
      right
      simp only [pushCombo]
      intro b hb hshares
      split at hb
      · cases hb
      · rcases List.mem_append.mp hb with hb | hb
        · exact .inr (hcleared b hb hshares).2
        · exact .inl (List.mem_singleton.mp hb)

end KeyMarked

theorem comboKeyPressed_spec {keyIndex keyCount now : Nat} {s : ComboState w}
    (hinactive : (s.flags index).active = false) :
    KeyPressed cfg index keyIndex keyCount s (comboKeyPressed cfg index keyIndex keyCount now s) := by
  rw [comboKeyPressed, if_pos hinactive]
  generalize hs₁ : ({ s.modifyFlags index (.keyDown keyIndex) with
    longestTerm := max s.longestTerm (cfg.term index) } : ComboState w) = s₁
  have hmarked : KeyMarked index keyIndex s s₁ := hs₁ ▸ keyMarked_keyDown s index keyIndex _
  have hring : s₁.comboBuffer.Sublist s.comboBuffer := hmarked.comboBuffer_eq ▸ .refl _
  dsimp only
  split
  · rename_i hall
    split
    · refine hmarked.pressed rfl (disables_modifyFlags s₁ index) (.inl hring) fun _ _ => .inl ?_
      rw [modifyFlags_same]
      rfl
    · have hspec := @dropOverlaps_spec w cfg index s₁.comboBuffer [] s₁ (fun b hb => by cases hb)
      exact hmarked.prepare hall hspec
  · rename_i hnot
    exact hmarked.pressed rfl (.refl _) (.inl hring) fun hall => absurd hall hnot

/-! ## The branch of the releases -/

variable {handOn : ComboEntry → ComboState w → ComboState w}

theorem modifyFlags_eq_self {s : ComboState w} {f : ComboFlags w → ComboFlags w}
    (h : f (s.flags index) = s.flags index) : s.modifyFlags index f = s := by
  have hflags : (fun i => if i = index then f (s.flags i) else s.flags i) = s.flags := by
    funext i
    by_cases hi : i = index
    · rw [if_pos hi, hi, h]
    · rw [if_neg hi]
  rw [ComboState.modifyFlags, hflags]

theorem dropComboFromBuffer_of_disabled {index : Nat} {s : ComboState w} (hdisabled : (s.flags index).disabled = true) :
    ∃ ring, dropComboFromBuffer index s = { s with comboBuffer := ring } ∧ ring.Sublist s.comboBuffer := by
  have hself : s.modifyFlags index .disable = s := by
    apply modifyFlags_eq_self
    rw [ComboFlags.disable, ← hdisabled]
  rw [dropComboFromBuffer, hself]
  split
  · dsimp only
    split
    · exact ⟨s.comboBuffer.tail, rfl, List.tail_sublist _⟩
    · exact ⟨s.comboBuffer, rfl, .refl _⟩
  · exact ⟨s.comboBuffer, rfl, .refl _⟩

theorem comboKeyReleased_of_not_marked {keycode keyIndex : Nat} {part : Bool} {s : ComboState w}
    (hkey : (cfg.combo index).keyIndex keycode = some keyIndex) (hmarks : (cfg.combo index).Marks (s.flags index).state)
    (hnot : ¬ (cfg.combo index).Marked (s.flags index).state keycode) :
    comboKeyReleased cfg handOn index keyIndex (cfg.combo index).keys.length part s = (false, s) := by
  have hmem := Combo.mem_of_keyIndex hkey
  have hall : ¬ allComboKeysAreDown (s.flags index).state (cfg.combo index).keys.length = true := fun hall =>
    hnot (((Combo.allComboKeysAreDown_iff hmarks (List.ne_nil_of_mem hmem)).mp hall).2 keycode hmem)
  have hbit : ¬ keyNotYetReleased (s.flags index).state keyIndex = true := fun hbit =>
    hnot ((Combo.marked_iff_keyNotYetReleased hkey).mpr hbit)
  simp only [comboKeyReleased, hall, hbit, Bool.false_eq_true, and_false, ↓reduceIte]
  rw [modifyFlags_eq_self]
  rw [ComboFlags.keyUp, Combo.keyStateUp_of_not_marked hkey hnot]

theorem processSingleCombo_of_not_mem {keycode now : Nat} {pressed : Bool} {s : ComboState w}
    (h : keycode ∉ (cfg.combo index).keys) :
    processSingleCombo cfg handOn keycode now pressed index s = (false, s) := by
  rw [processSingleCombo, findKeyIndexAndCount_eq, Combo.keyIndex_eq_none h]

theorem processSingleCombo_of_part {keycode now keyIndex : Nat} {s : ComboState w}
    (hkey : (cfg.combo index).keyIndex keycode = some keyIndex) (hdisabled : (s.flags index).disabled = false)
    (henabled : s.enabled = true) :
    processSingleCombo cfg handOn keycode now true index s =
      (true, comboKeyPressed cfg index keyIndex (cfg.combo index).keys.length now s) := by
  rw [processSingleCombo, findKeyIndexAndCount_eq, hkey]
  simp [hdisabled, henabled]

theorem processSingleCombo_of_not_part {keycode now keyIndex : Nat} {pressed : Bool} {s : ComboState w}
    (hkey : (cfg.combo index).keyIndex keycode = some keyIndex)
    (h : pressed = true → (s.flags index).disabled = true ∨ s.enabled = false) :
    processSingleCombo cfg handOn keycode now pressed index s =
      comboKeyReleased cfg handOn index keyIndex (cfg.combo index).keys.length
        (!(s.flags index).disabled && s.enabled) s := by
  rw [processSingleCombo, findKeyIndexAndCount_eq, hkey]
  dsimp only
  rw [if_neg]
  rintro ⟨hpressed, hpart⟩
  rcases h hpressed with h | h <;> simp [h] at hpart

/-! ## Key events -/

def isComboSwitch (keycode : Nat) : Bool :=
  decide (keycode = qkComboOn) || decide (keycode = qkComboOff) || decide (keycode = qkComboToggle)

variable {keycode now : Nat} {s : ComboState w}

theorem exec_switch {position : KeyPos} (hswitch : isComboSwitch keycode = true) :
    (ComboStep.key keycode position true now).exec cfg handOn s =
      if keycode = qkComboOn then comboEnable (s.write (.keyDown keycode))
      else if keycode = qkComboOff then comboDisable cfg handOn (s.write (.keyDown keycode))
      else comboToggle cfg handOn (s.write (.keyDown keycode)) := by
  have hpressed : (Record.raw ⟨position, UInt16.ofNat now, .key, true⟩ 0).event.pressed = true := rfl
  simp only [isComboSwitch, Bool.or_eq_true, decide_eq_true_eq] at hswitch
  simp only [ComboStep.exec, processCombo, hpressed, ↓reduceIte, and_true]
  split
  · rfl
  · rename_i hon
    split
    · rfl
    · rename_i hoff
      rw [if_pos (hswitch.resolve_left (by simp [hon, hoff]))]

theorem exec_key (position : KeyPos) (hswitch : isComboSwitch keycode = false) :
    let result := processSingleCombos cfg handOn keycode now true (List.range cfg.combos.length) false
      (s.write (.keyDown keycode))
    ∃ record : Record, record.event.type ≠ .tick ∧ (ComboStep.key keycode position true now).exec cfg handOn s =
      if result.1 = true then consumeKey cfg keycode record now result.2 else applyOrDump cfg handOn result.2 := by
  intro result
  have htype : (Record.raw ⟨position, UInt16.ofNat now, .key, true⟩ 0).event.type ≠ .tick := EventType.noConfusion
  have hpressed : (Record.raw ⟨position, UInt16.ofNat now, .key, true⟩ 0).event.pressed = true := rfl
  refine ⟨_, htype, ?_⟩
  rw [ComboStep.exec, processCombo]
  generalize Record.raw ⟨position, UInt16.ofNat now, .key, true⟩ 0 = record at htype hpressed
  simp only [isComboSwitch, Bool.or_eq_false_iff, decide_eq_false_iff_not] at hswitch
  obtain ⟨⟨hon, hoff⟩, htoggle⟩ := hswitch
  simp only [hpressed, hon, hoff, htoggle, ↓reduceIte, true_and, and_true, result]

theorem exec_release {position : KeyPos} :
    (ComboStep.key keycode position false now).exec cfg handOn s =
      applyOrDump cfg handOn (processSingleCombos cfg handOn keycode now false (List.range cfg.combos.length) false
        (s.write (.keyUp keycode))).2 := by
  have hreleased : (Record.raw ⟨position, UInt16.ofNat now, .key, false⟩ 0).event.pressed = false := rfl
  rw [ComboStep.exec, processCombo]
  simp only [hreleased, Bool.false_eq_true, and_false, false_and, ↓reduceIte]

end

end Keys
end VialQmk
