import VialQmk.Keys.ComboSteps

/-!
# Keys.ComboApply

The loop of `apply_combos` over the prepared combos.

* `applies`: all keys of an entry that is not disabled are in the key buffer.
* `applyLoop_spec`: each such entry is activated and gets one press of its output, in the place of its last key.
-/

namespace VialQmk
namespace Keys

variable {w : Nat} {cfg : ComboConfig}

def applies (cfg : ComboConfig) (s : ComboState w) (index : Nat) : Bool :=
  !(s.flags index).disabled && (applyScan (cfg.combo index) index (0 : BitVec w) s.keyBuffer).2.2

variable {handOn : ComboEntry → ComboState w → ComboState w} {buffer : List QueuedRecord} {s : ComboState w}

theorem applyScan_zero_iff {combo : Combo} {index : Nat} (hne : combo.keys ≠ []) :
    (applyScan combo index (0 : BitVec w) buffer).2.2 = true ↔
      combo.Fits w ∧ ∀ keycode ∈ combo.keys, keycode ∈ keycodesIn buffer := by
  have hnot : ¬ allComboKeysAreDown (0 : BitVec w) combo.keys.length = true := by
    intro h
    obtain ⟨key, hkey⟩ := List.exists_mem_of_ne_nil _ hne
    exact Combo.not_marked_zero (((Combo.allComboKeysAreDown_iff Combo.marks_zero hne).mp h).2 key hkey)
  rw [applyScan_done_iff hne buffer Combo.marks_zero hnot]
  simp only [Combo.not_marked_zero, false_or]

theorem applies_iff {index : Nat} (hne : (cfg.combo index).keys ≠ []) :
    applies cfg s index = true ↔ (s.flags index).disabled = false ∧ (cfg.combo index).Fits w ∧
      ∀ keycode ∈ (cfg.combo index).keys, keycode ∈ keycodesIn s.keyBuffer := by
  rw [applies, Bool.and_eq_true, Bool.not_eq_true', applyScan_zero_iff hne]

structure Complete (w : Nat) (cfg : ComboConfig) (index : Nat) (keycodes : List Nat) : Prop where
  fits : (cfg.combo index).Fits w
  keys : ∀ key ∈ (cfg.combo index).keys, key ∈ keycodes

theorem Complete.mono {index : Nat} {keycodes keycodes' : List Nat} (h : Complete w cfg index keycodes)
    (hsub : ∀ key ∈ keycodes, key ∈ keycodes') : Complete w cfg index keycodes' :=
  ⟨h.fits, fun key hkey => hsub key (h.keys key hkey)⟩

theorem not_complete_nil (index : Nat) : ¬ Complete w cfg index [] := by
  intro h
  obtain ⟨key, hkey⟩ := List.exists_mem_of_ne_nil _ h.fits.nonempty
  cases h.keys key hkey

theorem lt_of_keys_ne_nil {index : Nat} (h : (cfg.combo index).keys ≠ []) : index < cfg.combos.length := by
  by_contra hle
  apply h
  rw [ComboConfig.combo, List.getD_eq_getElem?_getD, List.getElem?_eq_none (by omega)]
  rfl

theorem applies_complete {index : Nat} (hne : (cfg.combo index).keys ≠ []) : applies cfg s index = true ↔
      (s.flags index).disabled = false ∧ Complete w cfg index (keycodesIn s.keyBuffer) := by
  rw [applies_iff hne]
  exact and_congr_right fun _ => ⟨fun h => ⟨h.1, h.2⟩, fun h => ⟨h.fits, h.keys⟩⟩

structure Appliable (cfg : ComboConfig) (s : ComboState w) : Prop where
  nodup : s.comboBuffer.Nodup
  nonempty : ∀ c ∈ s.comboBuffer, (cfg.combo c).keys ≠ []
  plain : ∀ q ∈ s.keyBuffer, q.Plain
  apart : ∀ c ∈ s.comboBuffer, ∀ c' ∈ s.comboBuffer, c ≠ c' → Shares cfg c c' → applies cfg s c = true →
    (s.flags c').disabled = true

inductive Became (cfg : ComboConfig) (s₀ : ComboState w) (pre : List Nat) (q : QueuedRecord) : Prop where
  | kept : q ∈ s₀.keyBuffer → Became cfg s₀ pre q
  | tick (c : Nat) : c ∈ pre → (s₀.flags c).disabled = false → q.keycode ∈ (cfg.combo c).keys →
      q.comboIndex = none → q.record.event.type = .tick → Became cfg s₀ pre q
  | output (c : Nat) : c ∈ pre → applies cfg s₀ c = true → q.keycode ∈ (cfg.combo c).keys →
      q.comboIndex = some c → q.record.event.type = .combo → Became cfg s₀ pre q

theorem Became.mono {s₀ : ComboState w} {pre pre' : List Nat} {q : QueuedRecord} (h : Became cfg s₀ pre q)
    (hsub : ∀ c ∈ pre, c ∈ pre') : Became cfg s₀ pre' q := by
  cases h with
  | kept h => exact .kept h
  | tick c hc h₁ h₂ h₃ h₄ => exact .tick c (hsub c hc) h₁ h₂ h₃ h₄
  | output c hc h₁ h₂ h₃ h₄ => exact .output c (hsub c hc) h₁ h₂ h₃ h₄

/-- The activations that the loop has logged, with the presses that they took. -/
structure Activations (cfg : ComboConfig) (s₀ : ComboState w) (pre : List Nat) (s : ComboState w)
    (acts : List (Nat × List QueuedRecord)) : Prop where
  log : s.log = s₀.log ++ acts.map fun a => .activated a.1 a.2
  indices : acts.map Prod.fst = pre.filter (applies cfg s₀)
  keys : ∀ a ∈ acts, ∀ key, key ∈ (cfg.combo a.1).keys ↔ key ∈ keycodesIn a.2
  /-- If no entry stays behind, nothing but what they took is missing in the buffer. -/
  taken : (∀ i ∈ pre, (s₀.flags i).disabled = false → applies cfg s₀ i = true) →
    (acts.flatMap Prod.snd ++ plainIn s.keyBuffer).Perm (plainIn s₀.keyBuffer)

/-- The state between two rounds of the loop, with the entries before and behind. -/
structure Applying (cfg : ComboConfig) (s₀ : ComboState w) (pre rest : List Nat) (s : ComboState w) : Prop where
  frame : s = { s₀ with flags := s.flags, comboBuffer := s.comboBuffer, keyBuffer := s.keyBuffer, log := s.log }
  keycodes : keycodesIn s.keyBuffer = keycodesIn s₀.keyBuffer
  flags : ∀ i, s.flags i = if i ∈ pre ∧ (s₀.flags i).disabled = false then
    ⟨true, (s₀.flags i).active || applies cfg s₀ i, (s₀.flags i).state⟩ else s₀.flags i
  ring : ∃ kept, s.comboBuffer = kept ++ rest ∧ kept.Sublist pre ∧
    ((∀ i ∈ pre, (s₀.flags i).disabled = false) → kept = [])
  buffer : ∀ q ∈ s.keyBuffer, Became cfg s₀ pre q
  outputs : (combosIn s.keyBuffer).Perm (pre.filter (applies cfg s₀))
  activations : ∃ acts, Activations cfg s₀ pre s acts

theorem combosIn_eq_nil (h : ∀ q ∈ buffer, q.comboIndex = none) : combosIn buffer = [] := by
  rw [combosIn, List.filterMap_eq_nil_iff]
  exact h

theorem Applying.start (h : Appliable cfg s) : Applying cfg s [] s.comboBuffer s where
  frame := rfl
  keycodes := rfl
  flags i := by simp
  ring := ⟨[], rfl, .refl _, fun _ => rfl⟩
  buffer q hq := .kept hq
  outputs := by
    rw [combosIn_eq_nil fun q hq => (h.plain q hq).1]
    exact .refl _
  activations := ⟨[], by simp, rfl, by simp, fun _ => .refl _⟩

theorem dropComboFromBuffer_of_mem {index : Nat} {kept rest : List Nat}
    (hring : s.comboBuffer = kept ++ index :: rest) (hnot : index ∉ kept) :
    dropComboFromBuffer index s = { s.modifyFlags index .disable with
      comboBuffer := if kept = [] then rest else kept ++ index :: rest } := by
  rw [dropComboFromBuffer, if_pos (by rw [hring]; exact List.mem_append_right _ List.mem_cons_self)]
  cases kept with
  | nil => simp [ComboState.modifyFlags, hring]
  | cons a kept =>
    have hne : a ≠ index := fun h => hnot (h ▸ List.mem_cons_self)
    simp [ComboState.modifyFlags, hring, hne]

theorem applyCombo_eq {c : Nat} {kept rest : List Nat} (hdisabled : (s.flags c).disabled = false)
    (hring : s.comboBuffer = kept ++ c :: rest) (hnot : c ∉ kept) : applyCombo cfg c s = { s with
      flags := fun i => if i = c then
        ⟨true, (s.flags c).active || (applyScan (cfg.combo c) c (0 : BitVec w) s.keyBuffer).2.2, (s.flags c).state⟩
        else s.flags i
      keyBuffer := (applyScan (cfg.combo c) c (0 : BitVec w) s.keyBuffer).1
      comboBuffer := if kept = [] then rest else kept ++ c :: rest
      log := s.log ++ if (applyScan (cfg.combo c) c (0 : BitVec w) s.keyBuffer).2.2 = true then
        [.activated c (applyScan (cfg.combo c) c (0 : BitVec w) s.keyBuffer).2.1] else [] } := by
  rw [applyCombo, if_neg (by rw [hdisabled]; exact Bool.false_ne_true)]
  generalize applyScan (cfg.combo c) c (0 : BitVec w) s.keyBuffer = result
  obtain ⟨buffer, taken, done⟩ := result
  cases done with
  | false =>
    simp only [Bool.false_eq_true, ↓reduceIte, Bool.or_false, List.append_nil]
    rw [dropComboFromBuffer_of_mem (s := { s with keyBuffer := buffer }) hring hnot]
    simp only [ComboState.modifyFlags, ComboState.mk.injEq, and_true]
    funext i
    by_cases hi : i = c
    · rw [if_pos hi, if_pos hi, hi]
      rfl
    · rw [if_neg hi, if_neg hi]
  | true =>
    simp only [↓reduceIte, Bool.or_true]
    have hring' : ((({ s with keyBuffer := buffer } : ComboState w).modifyFlags c .activate).write
        (.activated c taken)).comboBuffer = kept ++ c :: rest := hring
    rw [dropComboFromBuffer_of_mem hring' hnot]
    simp only [ComboState.modifyFlags, ComboState.write, ComboState.mk.injEq, and_true]
    funext i
    by_cases hi : i = c
    · rw [if_pos hi, if_pos hi, hi, if_pos rfl]
      rfl
    · rw [if_neg hi, if_neg hi, if_neg hi]

section Step

variable {s₀ s : ComboState w} {pre rest : List Nat} {c : Nat} {q : QueuedRecord}

theorem Appliable.not_mem_pre (h₀ : Appliable cfg s₀) (hsplit : s₀.comboBuffer = pre ++ c :: rest) : c ∉ pre := by
  have hnodup := h₀.nodup
  rw [hsplit] at hnodup
  exact fun hc => List.disjoint_of_nodup_append hnodup hc List.mem_cons_self

theorem Appliable.nonempty_here (h₀ : Appliable cfg s₀) (hsplit : s₀.comboBuffer = pre ++ c :: rest) :
    (cfg.combo c).keys ≠ [] := by
  refine h₀.nonempty c ?_
  rw [hsplit]
  exact List.mem_append_right _ List.mem_cons_self

theorem Appliable.not_shares (h₀ : Appliable cfg s₀) (hsplit : s₀.comboBuffer = pre ++ c :: rest)
    (hdisabled : (s₀.flags c).disabled = false) {c' : Nat} (hc' : c' ∈ pre) (happlies : applies cfg s₀ c' = true) :
    ¬ Shares cfg c' c := by
  intro hshares
  have hne : c' ≠ c := fun heq => h₀.not_mem_pre hsplit (heq ▸ hc')
  have hpre : c' ∈ s₀.comboBuffer := hsplit ▸ List.mem_append_left _ hc'
  have hhere : c ∈ s₀.comboBuffer := hsplit ▸ List.mem_append_right _ List.mem_cons_self
  have htrue := h₀.apart c' hpre c hhere hne hshares happlies
  cases hdisabled.symm.trans htrue

namespace Applying

theorem flags_here (h₀ : Appliable cfg s₀) (hsplit : s₀.comboBuffer = pre ++ c :: rest)
    (h : Applying cfg s₀ pre (c :: rest) s) : s.flags c = s₀.flags c := by
  rw [h.flags, if_neg fun hc => h₀.not_mem_pre hsplit hc.1]

theorem comboIndex_none (h₀ : Appliable cfg s₀) (hsplit : s₀.comboBuffer = pre ++ c :: rest)
    (h : Applying cfg s₀ pre (c :: rest) s) (hdisabled : (s₀.flags c).disabled = false) (hq : q ∈ s.keyBuffer)
    (hmem : q.keycode ∈ (cfg.combo c).keys) : q.comboIndex = none := by
  cases h.buffer q hq with
  | kept hold => exact (h₀.plain q hold).1
  | tick _ _ _ _ hnone => exact hnone
  | output c' hc' happlies hkey => exact absurd ⟨q.keycode, hkey, hmem⟩ (h₀.not_shares hsplit hdisabled hc' happlies)

theorem plain_of_all (h₀ : Appliable cfg s₀) (hsplit : s₀.comboBuffer = pre ++ c :: rest)
    (h : Applying cfg s₀ pre (c :: rest) s) (hdisabled : (s₀.flags c).disabled = false)
    (hall : ∀ i ∈ pre, (s₀.flags i).disabled = false → applies cfg s₀ i = true) (hq : q ∈ s.keyBuffer)
    (hmem : q.keycode ∈ (cfg.combo c).keys) : q.Plain := by
  refine ⟨h.comboIndex_none h₀ hsplit hdisabled hq hmem, fun htick => ?_⟩
  cases h.buffer q hq with
  | kept hold => exact (h₀.plain q hold).2 htick
  | tick c' hc' hdisabled' hkey =>
    exact h₀.not_shares hsplit hdisabled hc' (hall c' hc' hdisabled') ⟨q.keycode, hkey, hmem⟩
  | output _ _ _ _ _ htype =>
    rw [htick] at htype
    cases htype

theorem done_eq (h₀ : Appliable cfg s₀) (hsplit : s₀.comboBuffer = pre ++ c :: rest)
    (h : Applying cfg s₀ pre (c :: rest) s) (hdisabled : (s₀.flags c).disabled = false) :
    (applyScan (cfg.combo c) c (0 : BitVec w) s.keyBuffer).2.2 = applies cfg s₀ c := by
  have hne := h₀.nonempty_here hsplit
  rw [Bool.eq_iff_iff, applies_iff hne, applyScan_zero_iff hne, h.keycodes]
  simp [hdisabled]

theorem step_disabled (h₀ : Appliable cfg s₀) (hsplit : s₀.comboBuffer = pre ++ c :: rest)
    (h : Applying cfg s₀ pre (c :: rest) s) (hdisabled : (s₀.flags c).disabled = true) :
    Applying cfg s₀ (pre ++ [c]) rest (applyCombo cfg c s) := by
  have hmono : ∀ i ∈ pre, i ∈ pre ++ [c] := fun i hi => List.mem_append_left _ hi
  have happlies : applies cfg s₀ c = false := by simp [applies, hdisabled]
  obtain ⟨kept, hring, hkept, hempty⟩ := h.ring
  obtain ⟨acts, hacts⟩ := h.activations
  rw [applyCombo, if_pos (h.flags_here h₀ hsplit ▸ hdisabled)]
  refine ⟨h.frame, h.keycodes, fun i => ?_, ⟨kept ++ [c], ?_, hkept.append (.refl _), fun hall => ?_⟩,
    fun q hq => (h.buffer q hq).mono hmono, ?_, acts, hacts.log, ?_, hacts.keys, fun hall => ?_⟩
  · rw [h.flags i]
    by_cases hic : i = c
    · subst hic
      simp [h₀.not_mem_pre hsplit, hdisabled]
    · simp [hic]
  · rw [hring, List.append_cons]
  · rw [hall c (by simp)] at hdisabled
    cases hdisabled
  · simpa [List.filter_append, happlies] using h.outputs
  · simpa [List.filter_append, happlies] using hacts.indices
  · exact hacts.taken fun i hi => hall i (hmono i hi)

theorem step_activations (h₀ : Appliable cfg s₀) (hsplit : s₀.comboBuffer = pre ++ c :: rest)
    (h : Applying cfg s₀ pre (c :: rest) s) (hdisabled : (s₀.flags c).disabled = false) {s' : ComboState w}
    (hbuffer : s'.keyBuffer = (applyScan (cfg.combo c) c (0 : BitVec w) s.keyBuffer).1)
    (hlog : s'.log = s.log ++ if applies cfg s₀ c = true then
      [.activated c (applyScan (cfg.combo c) c (0 : BitVec w) s.keyBuffer).2.1] else []) :
    ∃ acts, Activations cfg s₀ (pre ++ [c]) s' acts := by
  obtain ⟨acts, hacts⟩ := h.activations
  cases happlies : applies cfg s₀ c with
  | false =>
    rw [happlies, if_neg Bool.false_ne_true, List.append_nil] at hlog
    refine ⟨acts, hlog.trans hacts.log, ?_, hacts.keys, fun hall => ?_⟩
    · simpa [List.filter_append, happlies] using hacts.indices
    · rw [hall c (by simp) hdisabled] at happlies
      cases happlies
  | true =>
    have hdone := (h.done_eq h₀ hsplit hdisabled).trans happlies
    rw [happlies, if_pos rfl] at hlog
    refine ⟨acts ++ [(c, (applyScan (cfg.combo c) c (0 : BitVec w) s.keyBuffer).2.1)], ?_, ?_, ?_, fun hall => ?_⟩
    · rw [hlog, hacts.log, List.map_append, List.append_assoc]
      rfl
    · rw [List.map_append, hacts.indices, List.filter_append, List.filter_singleton, happlies]
      rfl
    · intro a ha key
      rcases List.mem_append.mp ha with ha | ha
      · exact hacts.keys a ha key
      · have htaken := applyScan_taken_of_done s.keyBuffer (h₀.nonempty_here hsplit) Combo.marks_zero hdone
        rw [List.mem_singleton.mp ha]
        refine ⟨fun hkey => (htaken key hkey).resolve_left Combo.not_marked_zero, fun hkey => ?_⟩
        obtain ⟨q, hq, rfl⟩ := List.mem_map.mp hkey
        exact (mem_applyScan_taken s.keyBuffer hq).2
    · have hpre : ∀ i ∈ pre, (s₀.flags i).disabled = false → applies cfg s₀ i = true :=
        fun i hi => hall i (List.mem_append_left _ hi)
      have hplain := @applyScan_plainIn w (cfg.combo c) c s.keyBuffer 0
        fun q hq hmem => h.plain_of_all h₀ hsplit hdisabled hpre hq hmem
      rw [List.flatMap_append, List.append_assoc, hbuffer]
      refine (List.Perm.append_left _ ?_).trans (hacts.taken hpre)
      simpa using hplain

theorem step_enabled (h₀ : Appliable cfg s₀) (hsplit : s₀.comboBuffer = pre ++ c :: rest)
    (h : Applying cfg s₀ pre (c :: rest) s) (hdisabled : (s₀.flags c).disabled = false) :
    Applying cfg s₀ (pre ++ [c]) rest (applyCombo cfg c s) := by
  have hmono : ∀ i ∈ pre, i ∈ pre ++ [c] := fun i hi => List.mem_append_left _ hi
  have hflags := h.flags_here h₀ hsplit
  have hnone : ∀ q ∈ s.keyBuffer, q.keycode ∈ (cfg.combo c).keys → q.comboIndex = none :=
    fun q hq hmem => h.comboIndex_none h₀ hsplit hdisabled hq hmem
  obtain ⟨kept, hring, hkept, hempty⟩ := h.ring
  have hdone := h.done_eq h₀ hsplit hdisabled
  rw [applyCombo_eq (hflags ▸ hdisabled) hring fun hc => h₀.not_mem_pre hsplit (hkept.subset hc), hdone]
  refine ⟨?_, (applyScan_keycodesIn s.keyBuffer 0).trans h.keycodes, fun i => ?_, ?_, fun q hq => ?_, ?_,
    h.step_activations h₀ hsplit hdisabled rfl rfl⟩
  · rw [h.frame]
  · by_cases hic : i = c
    · subst hic
      simp [hdisabled, hflags]
    · simp only [hic, ↓reduceIte, List.mem_append, List.mem_singleton, or_false]
      exact h.flags i
  · by_cases hfirst : kept = []
    · refine ⟨[], ?_, List.nil_sublist _, fun _ => rfl⟩
      rw [if_pos hfirst]
      rfl
    · refine ⟨kept ++ [c], ?_, hkept.append (.refl _), fun hall => ?_⟩
      · rw [if_neg hfirst, List.append_cons]
      · exact absurd (hempty fun i hi => hall i (hmono i hi)) hfirst
  · rcases mem_applyScan_fst s.keyBuffer hq with hold | ⟨q₀, hq₀, hkey, rfl | ⟨hscan, rfl⟩⟩
    · exact (h.buffer q hold).mono hmono
    · exact .tick c (by simp) hdisabled hkey (hnone q₀ hq₀ hkey) rfl
    · exact .output c (by simp) (hdone.symm.trans hscan) hkey rfl rfl
  · rw [List.filter_append, List.filter_singleton, Bool.cond_eq_ite, ← hdone]
    exact (applyScan_combosIn s.keyBuffer hnone).trans
      ((List.Perm.append_left _ h.outputs).trans List.perm_append_comm)

theorem step (h₀ : Appliable cfg s₀) (hsplit : s₀.comboBuffer = pre ++ c :: rest)
    (h : Applying cfg s₀ pre (c :: rest) s) : Applying cfg s₀ (pre ++ [c]) rest (applyCombo cfg c s) := by
  cases hdisabled : (s₀.flags c).disabled with
  | true => exact h.step_disabled h₀ hsplit hdisabled
  | false => exact h.step_enabled h₀ hsplit hdisabled

end Applying

end Step

theorem applyLoop_spec {s₀ : ComboState w} (h₀ : Appliable cfg s₀) :
    Applying cfg s₀ s₀.comboBuffer [] (s₀.comboBuffer.foldl (fun s index => applyCombo cfg index s) s₀) := by
  have hloop : ∀ (rest pre : List Nat) (s : ComboState w), s₀.comboBuffer = pre ++ rest →
      Applying cfg s₀ pre rest s →
        Applying cfg s₀ s₀.comboBuffer [] (rest.foldl (fun s index => applyCombo cfg index s) s) := by
    intro rest
    induction rest with
    | nil =>
      intro pre s hsplit h
      rw [hsplit, List.append_nil]
      exact h
    | cons c rest ih =>
      intro pre s hsplit h
      exact ih (pre ++ [c]) _ (by rw [hsplit, List.append_cons]) (h.step h₀ hsplit)
  exact hloop s₀.comboBuffer [] s₀ rfl (.start h₀)

theorem keyBuffer_length_of_keycodes {buffer' : List QueuedRecord} (h : keycodesIn buffer = keycodesIn buffer') :
    buffer.length = buffer'.length := by
  simpa [keycodesIn] using congrArg List.length h

theorem applyCombos_of_empty (h : s.comboBuffer = []) :
    applyCombos cfg handOn s = clearCombos cfg (dumpKeyBuffer cfg handOn s) := by
  rw [applyCombos, h, List.foldl_nil]

theorem applyOrDump_eq {handOn : ComboEntry → ComboState w → ComboState w} (s : ComboState w) :
    ∃ timer, applyOrDump cfg handOn s = { applyCombos cfg handOn s with timer := timer } := by
  rw [applyOrDump]
  split
  · exact ⟨(applyCombos cfg handOn s).timer, rfl⟩
  · rename_i hempty
    rw [applyCombos_of_empty (not_not.mp hempty)]
    exact ⟨0, rfl⟩

theorem comboDisable_eq (hquiet : Quiet handOn) (hnext : s.keyBufferNext = 0)
    (hsize : s.keyBuffer.length ≤ cfg.keyBufferLength) :
    comboDisable cfg handOn s = applyCombos cfg handOn { s with timer := 0, enabled := false, comboBuffer := [] } := by
  have hnext' : (clearCombos cfg { s with timer := 0, enabled := false, comboBuffer := [] }).keyBufferNext = 0 := hnext
  have hsize' : (clearCombos cfg { s with timer := 0, enabled := false, comboBuffer := [] }).keyBuffer.length ≤
      cfg.keyBufferLength := hsize
  have hoff : ({ s with timer := 0, enabled := false, comboBuffer := [] } : ComboState w).keyBufferNext = 0 := hnext
  rw [applyCombos_of_empty rfl, dumpKeyBuffer_quiet hquiet hoff hsize, comboDisable,
    dumpKeyBuffer_quiet hquiet hnext' hsize']
  rfl

theorem dumpKeyBuffer_keyBuffer (s : ComboState w) : (dumpKeyBuffer cfg handOn s).keyBuffer = [] := by
  rw [dumpKeyBuffer]
  split
  · assumption
  · rfl

theorem applyOrDump_keyBuffer (s : ComboState w) : (applyOrDump cfg handOn s).keyBuffer = [] := by
  obtain ⟨timer, heq⟩ := @applyOrDump_eq w cfg handOn s
  rw [heq]
  exact dumpKeyBuffer_keyBuffer _

def clearedFlags (cfg : ComboConfig) (index : Nat) (f : ComboFlags w) : ComboFlags w :=
  if index < cfg.combos.length ∧ f.active = false then f.resetState else f

theorem applyCombos_eq (hquiet : Quiet handOn) {s₀ : ComboState w}
    (hs : s₀.comboBuffer.foldl (fun s index => applyCombo cfg index s) s₀ = s)
    (hspec : Applying cfg s₀ s₀.comboBuffer [] s) (hnext : s₀.keyBufferNext = 0)
    (hlength : s₀.keyBuffer.length ≤ cfg.keyBufferLength) : applyCombos cfg handOn s₀ = { s₀ with
      flags := fun i => clearedFlags cfg i (s.flags i)
      comboBuffer := s.comboBuffer
      keyBuffer := []
      longestTerm := 0
      log := s.log ++ callsIn s.keyBuffer } := by
  rw [applyCombos, hs, dumpKeyBuffer_quiet hquiet (by rw [hspec.frame]; exact hnext)
    (by rw [keyBuffer_length_of_keycodes hspec.keycodes]; exact hlength)]
  rw [clearCombos, hspec.frame]
  rfl

theorem clearedFlags_of_inactive {index : Nat} {f : ComboFlags w} (h : f.active = false) :
    (clearedFlags cfg index f).active = false ∧
      ((clearedFlags cfg index f).state = 0 ∨ (cfg.combo index).keys = [] ∧
        (clearedFlags cfg index f).state = f.state) := by
  rw [clearedFlags]
  split
  · exact ⟨h, .inl rfl⟩
  · rename_i hnot
    refine ⟨h, .inr ⟨?_, rfl⟩⟩
    by_contra hne
    exact hnot ⟨lt_of_keys_ne_nil hne, h⟩

/-- The flags behind `apply_combos`: of a combo that was activated, of one that was active, of any other. -/
theorem Applying.clearedFlags {s₁ : ComboState w} (hspec : Applying cfg s s.comboBuffer [] s₁)
    (happliable : Appliable cfg s) (hactiveDisabled : ∀ i, (s.flags i).active = true → (s.flags i).disabled = true)
    (i : Nat) : (i ∈ s.comboBuffer ∧ applies cfg s i = true ∧
      clearedFlags cfg i (s₁.flags i) = ⟨true, true, (s.flags i).state⟩) ∨
    (¬ (i ∈ s.comboBuffer ∧ applies cfg s i = true) ∧ (s.flags i).active = true ∧
      clearedFlags cfg i (s₁.flags i) = s.flags i) ∨
    (¬ (i ∈ s.comboBuffer ∧ applies cfg s i = true) ∧ (s.flags i).active = false ∧
      (clearedFlags cfg i (s₁.flags i)).active = false ∧
      ((clearedFlags cfg i (s₁.flags i)).state = 0 ∨ (cfg.combo i).keys = [] ∧
        (clearedFlags cfg i (s₁.flags i)).state = (s.flags i).state)) := by
  rw [hspec.flags i]
  by_cases happlied : i ∈ s.comboBuffer ∧ applies cfg s i = true
  · left
    obtain ⟨hmem, happlies⟩ := happlied
    have hdisabled := ((applies_complete (happliable.nonempty i hmem)).mp happlies).1
    refine ⟨hmem, happlies, ?_⟩
    rw [if_pos ⟨hmem, hdisabled⟩, happlies, Bool.or_true, Keys.clearedFlags, if_neg (by simp)]
  · right
    cases hactive : (s.flags i).active with
    | true =>
      left
      refine ⟨happlied, rfl, ?_⟩
      rw [if_neg (by simp [hactiveDisabled i hactive]), Keys.clearedFlags, if_neg (by simp [hactive])]
    | false =>
      right
      refine ⟨happlied, rfl, ?_⟩
      have hinactive : (if i ∈ s.comboBuffer ∧ (s.flags i).disabled = false then
          ⟨true, false || applies cfg s i, (s.flags i).state⟩ else s.flags i : ComboFlags w).active = false := by
        split
        · rename_i hmem
          rw [Bool.false_or, ← Bool.not_eq_true]
          exact fun happlies => happlied ⟨hmem.1, happlies⟩
        · exact hactive
      have hstate : (if i ∈ s.comboBuffer ∧ (s.flags i).disabled = false then
          ⟨true, false || applies cfg s i, (s.flags i).state⟩ else s.flags i : ComboFlags w).state =
            (s.flags i).state := by
        split <;> rfl
      have hcleared := @clearedFlags_of_inactive w cfg i _ hinactive
      rw [hstate] at hcleared
      exact hcleared

end Keys
end VialQmk
