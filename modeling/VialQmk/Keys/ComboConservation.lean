import VialQmk.Keys.ComboApply

/-!
# Keys.ComboConservation

A press that is kept back is handed on later, or a combo takes it.

* `KeepInv`: what is marked is in the key buffer, and the prepared combos that are not disabled have all their keys
  there and do not overlap.
* `presses_conserved`: in a run in which the key buffer has room for what is kept back, and no disabled combo is
  prepared when combos are applied, the presses that were kept back are those handed on, those that a combo took
  and those in the buffer.
* `press_lost`: a ninth press is lost.
-/

namespace VialQmk
namespace Keys

variable {w : Nat} {cfg : ComboConfig} {handOn : ComboEntry → ComboState w → ComboState w}

/-! ## The ledger -/

def ComboEntry.consumed? : ComboEntry → Option QueuedRecord
  | .consumed q => some q
  | _ => none

def ComboEntry.passed? : ComboEntry → Option QueuedRecord
  | .tapping q => if q.comboIndex = none then some q else none
  | _ => none

def ComboEntry.absorbed : ComboEntry → List QueuedRecord
  | .activated _ taken => taken
  | _ => []

def consumedIn (log : List ComboEntry) : List QueuedRecord := log.filterMap ComboEntry.consumed?

def passedIn (log : List ComboEntry) : List QueuedRecord := log.filterMap ComboEntry.passed?

def absorbedIn (log : List ComboEntry) : List QueuedRecord := log.flatMap ComboEntry.absorbed

/-- What a combo takes are presses of its keys, and of all of them. -/
def TakenByKeys (cfg : ComboConfig) (log : List ComboEntry) : Prop :=
  ∀ index taken, .activated index taken ∈ log → ∀ key, key ∈ (cfg.combo index).keys ↔ key ∈ keycodesIn taken

structure Ledger (cfg : ComboConfig) (s : ComboState w) : Prop where
  conserved : (consumedIn s.log).Perm (passedIn s.log ++ absorbedIn s.log ++ plainIn s.keyBuffer)
  taken : TakenByKeys cfg s.log

def ComboEntry.Uncounted (e : ComboEntry) : Prop :=
  e.consumed? = none ∧ e.passed? = none ∧ ∀ index taken, e ≠ .activated index taken

theorem ComboEntry.Uncounted.absorbed {e : ComboEntry} (h : e.Uncounted) : e.absorbed = [] := by
  cases e with
  | activated index taken => exact absurd rfl (h.2.2 index taken)
  | _ => rfl

variable {s s' : ComboState w} {keycodes : List Nat} {keycode now : Nat}

theorem Ledger.write (h : Ledger cfg s) {e : ComboEntry} (he : e.Uncounted) : Ledger cfg (s.write e) where
  conserved := by
    simpa [ComboState.write, consumedIn, passedIn, absorbedIn, he.1, he.2.1, he.absorbed] using h.conserved
  taken index taken hmem := by
    rcases List.mem_append.mp hmem with hmem | hmem
    · exact h.taken index taken hmem
    · exact absurd (List.mem_singleton.mp hmem).symm (he.2.2 index taken)

theorem Ledger.of_eq (h : Ledger cfg s) (hlog : s'.log = s.log) (hbuffer : s'.keyBuffer = s.keyBuffer) :
    Ledger cfg s' where
  conserved := by
    rw [hlog, hbuffer]
    exact h.conserved
  taken := hlog ▸ h.taken

/-! ## The invariant -/

/-- The keycodes are those in the buffer, and maybe that of the press on its way. -/
structure KeepInv (cfg : ComboConfig) (keycodes : List Nat) (s : ComboState w) : Prop where
  next : s.keyBufferNext = 0
  size : s.keyBuffer.length ≤ cfg.keyBufferLength
  plain : ∀ q ∈ s.keyBuffer, q.Plain
  marks : ∀ i, (cfg.combo i).Marks (s.flags i).state
  disabled : ∀ i, (s.flags i).active = true → (s.flags i).disabled = true
  ringNodup : s.comboBuffer.Nodup
  ringNonempty : ∀ c ∈ s.comboBuffer, (cfg.combo c).keys ≠ []
  backed : ∀ i, (s.flags i).active = false → ∀ key, (cfg.combo i).Marked (s.flags i).state key → key ∈ keycodes
  prepared : ∀ c ∈ s.comboBuffer, (s.flags c).disabled = false → Complete w cfg c keycodes
  apart : ∀ c ∈ s.comboBuffer, ∀ c' ∈ s.comboBuffer, c ≠ c' → Shares cfg c c' →
    (s.flags c).disabled = true ∨ (s.flags c').disabled = true
  ledger : Ledger cfg s

theorem KeepInv.inactive {cfg : ComboConfig} (h : KeepInv cfg keycodes s) {index : Nat}
    (hdisabled : (s.flags index).disabled = false) : (s.flags index).active = false := by
  rw [← Bool.not_eq_true]
  intro hactive
  rw [h.disabled index hactive] at hdisabled
  cases hdisabled

def RingClean (s : ComboState w) : Prop := ∀ c ∈ s.comboBuffer, (s.flags c).disabled = false
deriving Decidable

theorem initial_keepInv (cfg : ComboConfig) : KeepInv cfg [] (.initial w) where
  next := rfl
  size := Nat.zero_le _
  plain := by intro q hq; cases hq
  marks _ := Combo.marks_zero
  disabled := by intro i h; cases h
  ringNodup := List.nodup_nil
  ringNonempty := by intro c hc; cases hc
  backed i _ key h := absurd h Combo.not_marked_zero
  prepared := by intro c hc; cases hc
  apart := by intro c hc; cases hc
  ledger := ⟨.refl _, fun index taken h => by cases h⟩

theorem KeepInv.mono {keycodes' : List Nat} (h : KeepInv cfg keycodes s) (hsub : ∀ key ∈ keycodes, key ∈ keycodes') :
    KeepInv cfg keycodes' s :=
  { h with
    backed := fun i hi key hkey => hsub key (h.backed i hi key hkey)
    prepared := fun c hc hdisabled => (h.prepared c hc hdisabled).mono hsub }

theorem KeepInv.write (h : KeepInv cfg keycodes s) {e : ComboEntry} (he : e.Uncounted) :
    KeepInv cfg keycodes (s.write e) :=
  ⟨h.next, h.size, h.plain, h.marks, h.disabled, h.ringNodup, h.ringNonempty, h.backed, h.prepared, h.apart,
    h.ledger.write he⟩

theorem KeepInv.timers (h : KeepInv cfg keycodes s) (longestTerm timer : Nat) (enabled : Bool) :
    KeepInv cfg keycodes { s with longestTerm := longestTerm, timer := timer, enabled := enabled } :=
  ⟨h.next, h.size, h.plain, h.marks, h.disabled, h.ringNodup, h.ringNonempty, h.backed, h.prepared, h.apart,
    h.ledger.of_eq rfl rfl⟩

/-! ## One combo -/

theorem KeepInv.pressed {s s' : ComboState w} {keycodes : List Nat} {key index keyIndex : Nat}
    (h : KeepInv cfg keycodes s) (hin : key ∈ keycodes) (hkey : (cfg.combo index).keyIndex key = some keyIndex)
    (hinactive : (s.flags index).active = false)
    (hpressed : KeyPressed cfg index keyIndex (cfg.combo index).keys.length s s') : KeepInv cfg keycodes s' := by
  have hmem := Combo.mem_of_keyIndex hkey
  have hbuffer : s'.keyBuffer = s.keyBuffer := by rw [hpressed.frame]
  have hlog : s'.log = s.log := by rw [hpressed.frame]
  have hmarks : ∀ i, (cfg.combo i).Marks (s'.flags i).state := by
    intro i
    by_cases hi : i = index
    · rw [hi, hpressed.state_same]
      exact Combo.marks_keyStateDown hkey (h.marks index)
    · rw [hpressed.state_other i hi]
      exact h.marks i
  have hbacked : ∀ i, (s'.flags i).active = false → ∀ k, (cfg.combo i).Marked (s'.flags i).state k → k ∈ keycodes := by
    intro i hi k hk
    rw [hpressed.active i] at hi
    by_cases heq : i = index
    · subst heq
      rw [hpressed.state_same] at hk
      rcases (Combo.marked_keyStateDown hkey).mp hk with hk | ⟨rfl, -⟩
      · exact h.backed i hi k hk
      · exact hin
    · rw [hpressed.state_other i heq] at hk
      exact h.backed i hi k hk
  refine ⟨?_, ?_, ?_, hmarks, fun i hi => ?_, ?_, fun c hc => ?_, hbacked, fun c hc hdis => ?_,
    fun c hc c' hc' hne hshares => ?_, h.ledger.of_eq hlog hbuffer⟩
  · rw [hpressed.frame]
    exact h.next
  · rw [hbuffer]
    exact h.size
  · rw [hbuffer]
    exact h.plain
  · rw [hpressed.active i] at hi
    exact hpressed.disabled i (h.disabled i hi)
  · rcases hpressed.ring with hsub | ⟨-, kept, hkept, heq, hcleared⟩
    · exact hsub.nodup h.ringNodup
    · rw [heq]
      refine List.nodup_append.mpr ⟨hkept.nodup h.ringNodup, List.nodup_singleton _, fun a ha b hb => ?_⟩
      rw [List.mem_singleton.mp hb]
      rintro rfl
      exact (hcleared a ha ⟨key, hmem, hmem⟩).1 rfl
  · rcases hpressed.ring with hsub | ⟨-, kept, hkept, heq, -⟩
    · exact h.ringNonempty c (hsub.subset hc)
    · rw [heq, List.mem_append, List.mem_singleton] at hc
      rcases hc with hc | rfl
      · exact h.ringNonempty c (hkept.subset hc)
      · exact List.ne_nil_of_mem hmem
  · rcases hpressed.ring with hsub | ⟨hall, kept, hkept, heq, -⟩
    · exact h.prepared c (hsub.subset hc) (hpressed.undisabled hdis)
    · rw [heq, List.mem_append, List.mem_singleton] at hc
      rcases hc with hc | rfl
      · exact h.prepared c (hkept.subset hc) (hpressed.undisabled hdis)
      · obtain ⟨hfits, hdown⟩ := (Combo.allComboKeysAreDown_iff (hmarks c) (List.ne_nil_of_mem hmem)).mp hall
        exact ⟨hfits, fun k hk => hbacked c ((hpressed.active c).trans hinactive) k (hdown k hk)⟩
  · rcases hpressed.ring with hsub | ⟨-, kept, hkept, heq, hcleared⟩
    · exact (h.apart c (hsub.subset hc) c' (hsub.subset hc') hne hshares).imp (hpressed.disabled c)
        (hpressed.disabled c')
    · rw [heq, List.mem_append, List.mem_singleton] at hc hc'
      rcases hc with hc | rfl
      · rcases hc' with hc' | rfl
        · exact (h.apart c (hkept.subset hc) c' (hkept.subset hc') hne hshares).imp (hpressed.disabled c)
            (hpressed.disabled c')
        · exact .inl (hcleared c hc hshares).2
      · rcases hc' with hc' | rfl
        · exact .inr (hcleared c' hc' hshares.symm).2
        · exact absurd rfl hne

/-- What the branch of the releases can do to a combo: its bit goes, it may leave the ring if it is disabled, and
its output may be released. -/
structure KeyReleased (cfg : ComboConfig) (index keyIndex : Nat) (s s' : ComboState w) : Prop where
  frame : s' = { s with flags := s'.flags, comboBuffer := s'.comboBuffer, log := s'.log }
  other : ∀ i, i ≠ index → s'.flags i = s.flags i
  disabled : (s'.flags index).disabled = (s.flags index).disabled
  state : (s'.flags index).state = keyStateUp (s.flags index).state keyIndex
  active : (s'.flags index).active = (s.flags index).active ∨ (s'.flags index).active = false ∧
    onlyOneKeyIsDown (s.flags index).state = true ∧ keyNotYetReleased (s.flags index).state keyIndex = true
  ring : s'.comboBuffer.Sublist s.comboBuffer
  log : s'.log = s.log ∨ ∃ e : ComboEntry, e.Uncounted ∧ s'.log = s.log ++ [e]

theorem KeyReleased.keyBuffer_eq {index keyIndex : Nat} (h : KeyReleased cfg index keyIndex s s') :
    s'.keyBuffer = s.keyBuffer := by rw [h.frame]

theorem KeyReleased.disabled_eq {index keyIndex : Nat} (h : KeyReleased cfg index keyIndex s s') (i : Nat) :
    (s'.flags i).disabled = (s.flags i).disabled := by
  by_cases hi : i = index
  · rw [hi, h.disabled]
  · rw [h.other i hi]

theorem releaseCombo_quiet (hquiet : Quiet handOn) (index : Nat) (s : ComboState w) : ∃ e : ComboEntry, e.Uncounted ∧
    releaseCombo cfg handOn index s = (s.write e).modifyFlags index .deactivate := by
  rw [releaseCombo]
  split
  · refine ⟨.released index (cfg.combo index).keycode, ⟨rfl, rfl, fun _ _ => ComboEntry.noConfusion⟩, ?_⟩
    rw [hquiet]
  · refine ⟨.comboEvent index false, ⟨rfl, rfl, fun _ _ => ComboEntry.noConfusion⟩, ?_⟩
    rw [hquiet]

theorem comboKeyReleased_spec (hquiet : Quiet handOn) (index keyIndex keyCount : Nat) (part : Bool)
    (s : ComboState w) :
    KeyReleased cfg index keyIndex s (comboKeyReleased cfg handOn index keyIndex keyCount part s).2 := by
  have hup : ∀ ring : List Nat, ring.Sublist s.comboBuffer → KeyReleased cfg index keyIndex s
      (({ s with comboBuffer := ring } : ComboState w).modifyFlags index (.keyUp keyIndex)) := by
    intro ring hring
    refine ⟨rfl, fun i hi => ?_, ?_, ?_, .inl ?_, hring, .inl rfl⟩
    · rw [modifyFlags_other hi]
    · rw [modifyFlags_same]
      rfl
    · rw [modifyFlags_same]
      rfl
    · rw [modifyFlags_same]
      rfl
  simp only [comboKeyReleased]
  split
  · split
    · rename_i hdisabled
      obtain ⟨ring, hdrop, hring⟩ := dropComboFromBuffer_of_disabled hdisabled
      rw [hdrop]
      exact hup ring hring
    · exact hup s.comboBuffer (.refl _)
  · split
    · rename_i hlast
      obtain ⟨e, he, hrelease⟩ := @releaseCombo_quiet w cfg handOn hquiet index s
      rw [hrelease]
      refine ⟨rfl, fun i hi => ?_, ?_, ?_, .inr ⟨?_, hlast.2⟩, .refl _, .inr ⟨e, he, rfl⟩⟩
      · rw [modifyFlags_other hi, modifyFlags_other hi]
        rfl
      · rw [modifyFlags_same, modifyFlags_same]
        rfl
      · rw [modifyFlags_same, modifyFlags_same]
        rfl
      · rw [modifyFlags_same, modifyFlags_same]
        rfl
    · split
      · exact hup s.comboBuffer (.refl _)
      · exact hup s.comboBuffer (.refl _)

theorem KeepInv.released {key index keyIndex : Nat} (h : KeepInv cfg keycodes s)
    (hkey : (cfg.combo index).keyIndex key = some keyIndex) (hreleased : KeyReleased cfg index keyIndex s s') :
    KeepInv cfg keycodes s' := by
  have hbuffer := hreleased.keyBuffer_eq
  have hdisabled := hreleased.disabled_eq
  refine ⟨?_, ?_, ?_, fun i => ?_, fun i hi => ?_, hreleased.ring.nodup h.ringNodup,
    fun c hc => h.ringNonempty c (hreleased.ring.subset hc), fun i hi k hk => ?_, fun c hc hdis => ?_,
    fun c hc c' hc' hne hshares => ?_, ?_⟩
  · rw [hreleased.frame]
    exact h.next
  · rw [hbuffer]
    exact h.size
  · rw [hbuffer]
    exact h.plain
  · by_cases heq : i = index
    · rw [heq, hreleased.state]
      exact Combo.marks_keyStateUp keyIndex (h.marks index)
    · rw [hreleased.other i heq]
      exact h.marks i
  · rw [hdisabled]
    by_cases heq : i = index
    · subst heq
      rcases hreleased.active with hactive | ⟨hfalse, -⟩
      · exact h.disabled i (hactive ▸ hi)
      · rw [hfalse] at hi
        cases hi
    · rw [hreleased.other i heq] at hi
      exact h.disabled i hi
  · by_cases heq : i = index
    · subst heq
      rw [hreleased.state] at hk
      obtain ⟨hk, hkne⟩ := (Combo.marked_keyStateUp hkey).mp hk
      rcases hreleased.active with hactive | ⟨-, hone, hbit⟩
      · exact h.backed i (hactive ▸ hi) k hk
      · -- the last bit of an active combo has gone
        have hmarked := (Combo.marked_iff_keyNotYetReleased hkey).mpr hbit
        exact absurd (Combo.not_marked_of_onlyOneKeyIsDown hkey hmarked hone k hk) hkne
    · rw [hreleased.other i heq] at hi hk
      exact h.backed i hi k hk
  · rw [hdisabled] at hdis
    exact h.prepared c (hreleased.ring.subset hc) hdis
  · rw [hdisabled, hdisabled]
    exact h.apart c (hreleased.ring.subset hc) c' (hreleased.ring.subset hc') hne hshares
  · rcases hreleased.log with hlog | ⟨e, he, hlog⟩
    · exact h.ledger.of_eq hlog hbuffer
    · exact (h.ledger.write he).of_eq hlog hbuffer

/-! ## The loop over the combos -/

def takesPress (cfg : ComboConfig) (s : ComboState w) (keycode index : Nat) : Bool :=
  match (cfg.combo index).keyIndex keycode with
  | none => false
  | some keyIndex =>
    (!(s.flags index).disabled && s.enabled) || ((s.flags index).active && keyNotYetReleased (s.flags index).state keyIndex)

theorem takesPress_congr {index : Nat} (hflags : s'.flags index = s.flags index) (henabled : s'.enabled = s.enabled)
    : takesPress cfg s' keycode index = takesPress cfg s keycode index := by
  rw [takesPress, takesPress, hflags, henabled]

theorem processSingleCombo_answer (keycode now index : Nat) (s : ComboState w) :
    (processSingleCombo cfg handOn keycode now true index s).1 = takesPress cfg s keycode index := by
  by_cases hmem : keycode ∈ (cfg.combo index).keys
  · obtain ⟨keyIndex, hkey⟩ := Combo.exists_keyIndex hmem
    rw [takesPress, hkey]
    dsimp only
    by_cases hpart : (s.flags index).disabled = false ∧ s.enabled = true
    · rw [processSingleCombo_of_part hkey hpart.1 hpart.2]
      simp [hpart.1, hpart.2]
    · have hpart' : (s.flags index).disabled = true ∨ s.enabled = false := by
        rw [not_and_or, Bool.not_eq_false, Bool.not_eq_true] at hpart
        exact hpart
      have hfalse : (!(s.flags index).disabled && s.enabled) = false := by
        rcases hpart' with h | h <;> simp [h]
      rw [processSingleCombo_of_not_part hkey fun _ => hpart', hfalse, Bool.false_or]
      cases hactive : (s.flags index).active with
      | false =>
        simp only [comboKeyReleased, hactive, Bool.false_eq_true, false_and, true_and, ↓reduceIte, Bool.false_and]
        split
        · split <;> rfl
        · rfl
      | true =>
        simp only [comboKeyReleased, hactive, Bool.true_eq_false, false_and, true_and, ↓reduceIte, Bool.true_and]
        split
        · rename_i hlast
          exact hlast.2.symm
        · split
          · rename_i hbit
            exact hbit.symm
          · rename_i hbit
            exact ((Bool.not_eq_true _).mp hbit).symm
  · rw [processSingleCombo_of_not_mem hmem, takesPress, Combo.keyIndex_eq_none hmem]

theorem processSingleCombo_of_not_taken (hquiet : Quiet handOn) {keycode now index : Nat} {pressed : Bool}
    {s : ComboState w} (h : pressed = true → takesPress cfg s keycode index = false) :
    (processSingleCombo cfg handOn keycode now pressed index s).2 = s ∨
      ∃ keyIndex, (cfg.combo index).keyIndex keycode = some keyIndex ∧
        KeyReleased cfg index keyIndex s (processSingleCombo cfg handOn keycode now pressed index s).2 := by
  by_cases hmem : keycode ∈ (cfg.combo index).keys
  · obtain ⟨keyIndex, hkey⟩ := Combo.exists_keyIndex hmem
    refine .inr ⟨keyIndex, hkey, ?_⟩
    rw [processSingleCombo_of_not_part hkey fun hpressed => ?_]
    · exact comboKeyReleased_spec hquiet ..
    · have htakes := h hpressed
      rw [takesPress, hkey] at htakes
      simp only [Bool.or_eq_false_iff, Bool.and_eq_false_iff, Bool.not_eq_false'] at htakes
      exact htakes.1
  · rw [processSingleCombo_of_not_mem hmem]
    exact .inl rfl

theorem processSingleCombo_handOn {index : Nat} (h : takesPress cfg s keycode index = false) :
    processSingleCombo cfg handOn keycode now true index s =
      processSingleCombo cfg onlyLogged keycode now true index s := by
  by_cases hmem : keycode ∈ (cfg.combo index).keys
  · obtain ⟨keyIndex, hkey⟩ := Combo.exists_keyIndex hmem
    rw [takesPress, hkey] at h
    simp only [Bool.or_eq_false_iff, Bool.and_eq_false_iff, Bool.not_eq_false'] at h
    obtain ⟨hpart, hbit⟩ := h
    rw [processSingleCombo_of_not_part hkey fun _ => hpart, processSingleCombo_of_not_part hkey fun _ => hpart]
    have hlast : ¬ ((s.flags index).active = true ∧ onlyOneKeyIsDown (s.flags index).state = true ∧
        keyNotYetReleased (s.flags index).state keyIndex = true) := by
      rintro ⟨hactive, -, hmarked⟩
      rcases hbit with hinactive | hunmarked
      · cases hactive.symm.trans hinactive
      · cases hmarked.symm.trans hunmarked
    simp only [comboKeyReleased, if_neg hlast]
  · rw [processSingleCombo_of_not_mem hmem, processSingleCombo_of_not_mem hmem]

theorem takesPress_behind {index i : Nat} (h : takesPress cfg s keycode index = false) (hne : i ≠ index) :
    takesPress cfg (processSingleCombo cfg handOn keycode now true index s).2 keycode i =
      takesPress cfg s keycode i := by
  rw [processSingleCombo_handOn h]
  rcases @processSingleCombo_of_not_taken w cfg onlyLogged quiet_onlyLogged keycode now index true s fun _ => h with
    hsame | ⟨keyIndex, -, hreleased⟩
  · rw [hsame]
  · exact takesPress_congr (hreleased.other i hne) (by rw [hreleased.frame])

theorem processSingleCombos_answer_true (keycode now : Nat) (pressed : Bool) : ∀ (rem : List Nat) (s : ComboState w),
    (processSingleCombos cfg handOn keycode now pressed rem true s).1 = true := by
  intro rem
  induction rem with
  | nil => intro s; rfl
  | cons index rem ih =>
    intro s
    exact ih _

/-- The answer of the loop to a press, from the state before it and whatever is handed on meanwhile. -/
theorem processSingleCombos_answer : ∀ {rem : List Nat} {s : ComboState w}, rem.Nodup →
    (processSingleCombos cfg handOn keycode now true rem false s).1 = rem.any (takesPress cfg s keycode) := by
  intro rem
  induction rem with
  | nil => intro s _; rfl
  | cons index rem ih =>
    intro s hnodup
    obtain ⟨hnot, hnodup⟩ := List.nodup_cons.mp hnodup
    have hanswer := @processSingleCombo_answer w cfg handOn keycode now index s
    rw [processSingleCombos, List.any_cons]
    cases htakes : takesPress cfg s keycode index with
    | true =>
      rw [htakes] at hanswer
      simp only [hanswer, Bool.or_true, Bool.true_or]
      exact processSingleCombos_answer_true keycode now true rem _
    | false =>
      rw [htakes] at hanswer
      simp only [hanswer, Bool.or_false, Bool.false_or]
      rw [ih hnodup, Bool.eq_iff_iff, List.any_eq_true, List.any_eq_true]
      refine exists_congr fun i => and_congr_right fun hi => ?_
      rw [takesPress_behind htakes fun heq => hnot (heq ▸ hi)]

theorem KeepInv.pressLoop (hquiet : Quiet handOn) {keycodes : List Nat} {keycode now : Nat}
    (hin : keycode ∈ keycodes) : ∀ {rem : List Nat} {any : Bool} {s : ComboState w}, KeepInv cfg keycodes s →
      KeepInv cfg keycodes (processSingleCombos cfg handOn keycode now true rem any s).2 ∧
        (processSingleCombos cfg handOn keycode now true rem any s).2.keyBuffer = s.keyBuffer := by
  intro rem
  induction rem with
  | nil => intro any s h; exact ⟨h, rfl⟩
  | cons index rem ih =>
    intro any s h
    have hstep : KeepInv cfg keycodes (processSingleCombo cfg handOn keycode now true index s).2 ∧
        (processSingleCombo cfg handOn keycode now true index s).2.keyBuffer = s.keyBuffer := by
      by_cases hmem : keycode ∈ (cfg.combo index).keys
      · obtain ⟨keyIndex, hkey⟩ := Combo.exists_keyIndex hmem
        by_cases hpart : (s.flags index).disabled = false ∧ s.enabled = true
        · have hinactive := h.inactive hpart.1
          rw [processSingleCombo_of_part hkey hpart.1 hpart.2]
          have hpressed := @comboKeyPressed_spec w cfg index keyIndex (cfg.combo index).keys.length now s hinactive
          exact ⟨h.pressed hin hkey hinactive hpressed, by rw [hpressed.frame]⟩
        · rw [not_and_or, Bool.not_eq_false, Bool.not_eq_true] at hpart
          rw [processSingleCombo_of_not_part hkey fun _ => hpart]
          have hreleased := @comboKeyReleased_spec w cfg handOn hquiet index keyIndex (cfg.combo index).keys.length
            (!(s.flags index).disabled && s.enabled) s
          exact ⟨h.released hkey hreleased, by rw [hreleased.frame]⟩
      · rw [processSingleCombo_of_not_mem hmem]
        exact ⟨h, rfl⟩
    obtain ⟨hinv, hbuffer⟩ := @ih (any || (processSingleCombo cfg handOn keycode now true index s).1) _ hstep.1
    exact ⟨hinv, hbuffer.trans hstep.2⟩

theorem KeepInv.otherLoop (hquiet : Quiet handOn) {keycodes : List Nat} {keycode now : Nat} {pressed : Bool} :
    ∀ {rem : List Nat} {any : Bool} {s : ComboState w}, rem.Nodup →
      (pressed = true → ∀ i ∈ rem, takesPress cfg s keycode i = false) → KeepInv cfg keycodes s → RingClean s →
        KeepInv cfg keycodes (processSingleCombos cfg handOn keycode now pressed rem any s).2 ∧
          RingClean (processSingleCombos cfg handOn keycode now pressed rem any s).2 ∧
          (processSingleCombos cfg handOn keycode now pressed rem any s).2.keyBuffer = s.keyBuffer := by
  intro rem
  induction rem with
  | nil => intro any s _ _ h hclean; exact ⟨h, hclean, rfl⟩
  | cons index rem ih =>
    intro any s hnodup htakes h hclean
    obtain ⟨hnot, hnodup⟩ := List.nodup_cons.mp hnodup
    rw [processSingleCombos]
    have hidle := @processSingleCombo_of_not_taken w cfg handOn hquiet keycode now index pressed s
      fun hpressed => htakes hpressed index List.mem_cons_self
    generalize processSingleCombo cfg handOn keycode now pressed index s = result at hidle
    obtain ⟨part, s'⟩ := result
    dsimp only at hidle ⊢
    rcases hidle with rfl | ⟨keyIndex, hkey, hreleased⟩
    · exact ih hnodup (fun hpressed i hi => htakes hpressed i (List.mem_cons_of_mem _ hi)) h hclean
    · have hbuffer : s'.keyBuffer = s.keyBuffer := by rw [hreleased.frame]
      rw [← hbuffer]
      refine ih hnodup (fun hpressed i hi => ?_) (h.released hkey hreleased) fun c hc => ?_
      · rw [takesPress_congr (hreleased.other i fun heq => hnot (heq ▸ hi)) (by rw [hreleased.frame])]
        exact htakes hpressed i (List.mem_cons_of_mem _ hi)
      · by_cases heq : c = index
        · rw [heq, hreleased.disabled, ← heq]
          exact hclean c (hreleased.ring.subset hc)
        · rw [hreleased.other c heq]
          exact hclean c (hreleased.ring.subset hc)

/-! ## Applying -/

theorem passedIn_callsIn (buffer : List QueuedRecord) : passedIn (callsIn buffer) = plainIn buffer := by
  induction buffer with
  | nil => rfl
  | cons q buffer ih =>
    rw [callsIn_cons, passedIn, List.filterMap_append, ← passedIn, ← passedIn, ih]
    by_cases htick : q.record.event.type = .tick
    · simp [plainIn, QueuedRecord.Plain, htick, passedIn]
    · cases hq : q.comboIndex with
      | none => simp [plainIn, QueuedRecord.Plain, htick, hq, passedIn, QueuedRecord.call, ComboEntry.passed?]
      | some c =>
        have hcall : q.call.passed? = none := by
          rw [QueuedRecord.call, hq]
          dsimp only
          split
          · rfl
          · simp [ComboEntry.passed?, hq]
        simp [plainIn, QueuedRecord.Plain, htick, hq, passedIn, hcall]

theorem uncounted_call_consumed {buffer : List QueuedRecord} : consumedIn (callsIn buffer) = [] ∧
    absorbedIn (callsIn buffer) = [] ∧ ∀ index taken, ComboEntry.activated index taken ∉ callsIn buffer := by
  have hcall : ∀ q : QueuedRecord, q.call.consumed? = none ∧ q.call.absorbed = [] ∧
      ∀ index taken, q.call ≠ .activated index taken := by
    intro q
    rw [QueuedRecord.call]
    split
    · split
      · exact ⟨rfl, rfl, fun _ _ => ComboEntry.noConfusion⟩
      · exact ⟨rfl, rfl, fun _ _ => ComboEntry.noConfusion⟩
    · exact ⟨rfl, rfl, fun _ _ => ComboEntry.noConfusion⟩
  refine ⟨?_, ?_, ?_⟩
  · rw [consumedIn, List.filterMap_eq_nil_iff]
    intro e he
    obtain ⟨q, -, rfl⟩ := List.mem_map.mp he
    exact (hcall q).1
  · rw [absorbedIn, List.flatMap_eq_nil_iff]
    intro e he
    obtain ⟨q, -, rfl⟩ := List.mem_map.mp he
    exact (hcall q).2.1
  · intro index taken he
    obtain ⟨q, -, hq⟩ := List.mem_map.mp he
    exact (hcall q).2.2 index taken hq

theorem activations_ledger (acts : List (Nat × List QueuedRecord)) :
    consumedIn (acts.map fun a => .activated a.1 a.2) = [] ∧ passedIn (acts.map fun a => .activated a.1 a.2) = [] ∧
      absorbedIn (acts.map fun a => .activated a.1 a.2) = acts.flatMap Prod.snd := by
  refine ⟨?_, ?_, ?_⟩
  · rw [consumedIn, List.filterMap_eq_nil_iff]
    intro e he
    obtain ⟨a, -, rfl⟩ := List.mem_map.mp he
    rfl
  · rw [passedIn, List.filterMap_eq_nil_iff]
    intro e he
    obtain ⟨a, -, rfl⟩ := List.mem_map.mp he
    rfl
  · rw [absorbedIn, List.flatMap_map]
    rfl

theorem KeepInv.appliable (h : KeepInv cfg (keycodesIn s.keyBuffer) s) : Appliable cfg s where
  nodup := h.ringNodup
  nonempty := h.ringNonempty
  plain := h.plain
  apart c hc c' hc' hne hshares happlies := by
    have hdisabled := ((applies_complete (h.ringNonempty c hc)).mp happlies).1
    refine (h.apart c hc c' hc' hne hshares).resolve_left fun htrue => ?_
    rw [hdisabled] at htrue
    cases htrue

theorem KeepInv.applyCombos (hquiet : Quiet handOn) (h : KeepInv cfg (keycodesIn s.keyBuffer) s)
    (hclean : RingClean s) : KeepInv cfg [] (applyCombos cfg handOn s) ∧
      (applyCombos cfg handOn s).keyBuffer = [] := by
  have hspec := applyLoop_spec h.appliable
  generalize hs₁ : s.comboBuffer.foldl (fun s index => applyCombo cfg index s) s = s₁ at hspec
  rw [applyCombos_eq hquiet hs₁ hspec h.next h.size]
  refine ⟨?_, rfl⟩
  obtain ⟨kept, hring, -, hempty⟩ := hspec.ring
  rw [hempty hclean, List.append_nil] at hring
  obtain ⟨acts, hacts⟩ := hspec.activations
  have htaken := hacts.taken fun c hc hdisabled =>
    (applies_complete (h.ringNonempty c hc)).mpr ⟨hdisabled, h.prepared c hc hdisabled⟩
  have hflags := fun i => hspec.clearedFlags h.appliable h.disabled i
  refine ⟨h.next, Nat.zero_le _, (fun q hq => by cases hq), fun i => ?_, fun i hactive => ?_, ?_, fun c hc => ?_,
    fun i hinactive key hmarked => ?_, fun c hc => ?_, fun c hc => ?_, ⟨?_, ?_⟩⟩
  · rcases hflags i with ⟨-, -, hi⟩ | ⟨-, -, hi⟩ | ⟨-, -, -, hzero | ⟨-, hstate⟩⟩
    · simp only [hi]
      exact h.marks i
    · simp only [hi]
      exact h.marks i
    · simp only [hzero]
      exact Combo.marks_zero
    · simp only [hstate]
      exact h.marks i
  · rcases hflags i with ⟨-, -, hi⟩ | ⟨-, hold, hi⟩ | ⟨-, -, hfalse, -⟩
    · simp only [hi]
    · simp only [hi]
      exact h.disabled i hold
    · rw [hfalse] at hactive
      cases hactive
  · simp only [hring]
    exact List.nodup_nil
  · simp only [hring] at hc
    cases hc
  · rcases hflags i with ⟨-, -, hi⟩ | ⟨-, hold, hi⟩ | ⟨-, -, -, hzero | ⟨hkeys, -⟩⟩
    · simp only [hi] at hinactive
      cases hinactive
    · simp only [hi] at hinactive
      rw [hold] at hinactive
      cases hinactive
    · simp only [hzero] at hmarked
      exact absurd hmarked Combo.not_marked_zero
    · have hmem := Combo.Marked.mem hmarked
      rw [hkeys] at hmem
      cases hmem
  · simp only [hring] at hc
    cases hc
  · simp only [hring] at hc
    cases hc
  · obtain ⟨hconsumed, habsorbed, -⟩ := @uncounted_call_consumed s₁.keyBuffer
    obtain ⟨hconsumed', hpassed', habsorbed'⟩ := activations_ledger acts
    have hlogConsumed : consumedIn (s₁.log ++ callsIn s₁.keyBuffer) = consumedIn s.log := by
      simp only [consumedIn, List.filterMap_append, hacts.log] at hconsumed hconsumed' ⊢
      rw [hconsumed, hconsumed', List.append_nil, List.append_nil]
    have hlogPassed : passedIn (s₁.log ++ callsIn s₁.keyBuffer) = passedIn s.log ++ plainIn s₁.keyBuffer := by
      rw [← passedIn_callsIn]
      simp only [passedIn, List.filterMap_append, hacts.log] at hpassed' ⊢
      rw [hpassed', List.append_nil]
    have hlogAbsorbed : absorbedIn (s₁.log ++ callsIn s₁.keyBuffer) = absorbedIn s.log ++ acts.flatMap Prod.snd := by
      simp only [absorbedIn, List.flatMap_append, hacts.log] at habsorbed habsorbed' ⊢
      rw [habsorbed, habsorbed', List.append_nil]
    rw [hlogConsumed, hlogPassed, hlogAbsorbed]
    refine h.ledger.conserved.trans ?_
    have hplain : plainIn ([] : List QueuedRecord) = [] := rfl
    rw [hplain, List.append_nil, List.append_assoc, List.append_assoc]
    refine List.Perm.append_left _ ?_
    refine ((List.Perm.append_left _ htaken.symm).trans ?_).trans List.perm_append_comm
    rw [List.append_assoc]
  · intro index taken hmem key
    rcases List.mem_append.mp hmem with hmem | hmem
    · rw [hacts.log] at hmem
      rcases List.mem_append.mp hmem with hmem | hmem
      · exact h.ledger.taken index taken hmem key
      · obtain ⟨a, ha, heq⟩ := List.mem_map.mp hmem
        cases heq
        exact hacts.keys a ha key
    · exact absurd hmem (uncounted_call_consumed.2.2 index taken)

/-! ## The steps -/

def KeptInv (cfg : ComboConfig) (s : ComboState w) : Prop := KeepInv cfg (keycodesIn s.keyBuffer) s

theorem KeptInv.timers (h : KeptInv cfg s) (longestTerm timer : Nat) (enabled : Bool) :
    KeptInv cfg { s with longestTerm := longestTerm, timer := timer, enabled := enabled } :=
  KeepInv.timers h longestTerm timer enabled

theorem KeptInv.applyCombos (hquiet : Quiet handOn) (h : KeptInv cfg s) (hclean : RingClean s) :
    KeptInv cfg (applyCombos cfg handOn s) := by
  obtain ⟨hinv, hempty⟩ := KeepInv.applyCombos hquiet h hclean
  rw [KeptInv, hempty]
  exact hinv

theorem KeptInv.applyOrDump (hquiet : Quiet handOn) (h : KeptInv cfg s) (hclean : RingClean s) :
    KeptInv cfg (applyOrDump cfg handOn s) := by
  obtain ⟨timer, heq⟩ := @applyOrDump_eq w cfg handOn s
  rw [heq]
  exact (h.applyCombos hquiet hclean).timers _ timer _

theorem KeptInv.comboTask (hquiet : Quiet handOn) (h : KeptInv cfg s)
    (hclean : s.enabled = true → s.timer ≠ 0 → s.longestTerm < timerElapsed now s.timer → RingClean s) :
    KeptInv cfg (comboTask cfg handOn now s) := by
  rw [Keys.comboTask]
  split
  · exact h
  rename_i henabled
  split
  · rename_i htimeout
    have happlied := h.applyCombos hquiet (hclean ((Bool.not_eq_false _).mp henabled) htimeout.1 htimeout.2)
    split
    · exact happlied.timers 0 0 _
    · rename_i hempty
      rw [applyCombos_of_empty (not_not.mp hempty)] at happlied
      exact happlied.timers _ 0 _
  · exact h

theorem KeptInv.comboDisable (hquiet : Quiet handOn) (h : KeptInv cfg s) :
    KeptInv cfg (comboDisable cfg handOn s) := by
  have hoff : KeptInv cfg { s with timer := 0, enabled := false, comboBuffer := [] } :=
    ⟨h.next, h.size, h.plain, h.marks, h.disabled, List.nodup_nil, (fun c hc => by cases hc), h.backed,
      (fun c hc => by cases hc), (fun c hc => by cases hc), h.ledger.of_eq rfl rfl⟩
  rw [comboDisable_eq hquiet h.next h.size]
  exact hoff.applyCombos hquiet fun c hc => by cases hc

theorem KeptInv.comboToggle (hquiet : Quiet handOn) (h : KeptInv cfg s) :
    KeptInv cfg (comboToggle cfg handOn s) := by
  rw [Keys.comboToggle]
  split
  · exact h.comboDisable hquiet
  · exact h.timers _ _ true

theorem KeepInv.consumeKey (h : KeepInv cfg (keycode :: keycodesIn s.keyBuffer) s) {record : Record}
    (hrecord : record.event.type ≠ .tick) (hroom : s.keyBuffer.length < cfg.keyBufferLength) (now : Nat) :
    KeptInv cfg (consumeKey cfg keycode record now s) := by
  have hplain : QueuedRecord.Plain ⟨record, keycode, none⟩ := ⟨rfl, hrecord⟩
  have hinv : KeptInv cfg { s with
      keyBuffer := s.keyBuffer ++ [⟨record, keycode, none⟩]
      log := s.log ++ [.consumed ⟨record, keycode, none⟩] } := by
    have hmono : KeepInv cfg (keycodesIn (s.keyBuffer ++ [⟨record, keycode, none⟩])) s := h.mono fun k hk => by
      rcases List.mem_cons.mp hk with rfl | hk
      · simp [keycodesIn]
      · rw [keycodesIn, List.map_append]
        exact List.mem_append_left _ hk
    refine ⟨hmono.next, ?_, fun q hq => ?_, hmono.marks, hmono.disabled, hmono.ringNodup, hmono.ringNonempty,
      hmono.backed, hmono.prepared, hmono.apart, ⟨?_, fun index taken hmem => ?_⟩⟩
    · rw [List.length_append, List.length_singleton]
      exact hroom
    · rcases List.mem_append.mp hq with hq | hq
      · exact h.plain q hq
      · rw [List.mem_singleton.mp hq]
        exact hplain
    · have hconsumed : consumedIn (s.log ++ [.consumed ⟨record, keycode, none⟩]) =
          consumedIn s.log ++ [⟨record, keycode, none⟩] := by simp [consumedIn, ComboEntry.consumed?]
      have hpassed : passedIn (s.log ++ [.consumed ⟨record, keycode, none⟩]) = passedIn s.log := by
        simp [passedIn, ComboEntry.passed?]
      have habsorbed : absorbedIn (s.log ++ [.consumed ⟨record, keycode, none⟩]) = absorbedIn s.log := by
        simp [absorbedIn, ComboEntry.absorbed]
      have hbuffer : plainIn (s.keyBuffer ++ [⟨record, keycode, none⟩]) =
          plainIn s.keyBuffer ++ [⟨record, keycode, none⟩] := by simp [plainIn, hplain]
      rw [hconsumed, hpassed, habsorbed, hbuffer, ← List.append_assoc]
      exact List.Perm.append_right _ h.ledger.conserved
    · rcases List.mem_append.mp hmem with hmem | hmem
      · exact h.ledger.taken index taken hmem
      · cases List.mem_singleton.mp hmem
  rw [Keys.consumeKey]
  split
  · simp only [ComboState.write, hroom, ↓reduceIte]
    exact hinv
  · simp only [ComboState.write, hroom, ↓reduceIte]
    exact hinv.timers _ (now % 65536) _

/-! ## Runs -/

/-- There is room for a press that is kept back, and no disabled combo is prepared when combos are applied. -/
def ComboStep.Kept (cfg : ComboConfig) (s : ComboState w) : ComboStep → Prop
  | .key keycode _ true _ =>
    isComboSwitch keycode = true ∨
      if (List.range cfg.combos.length).any (takesPress cfg s keycode) = true then
        s.keyBuffer.length < cfg.keyBufferLength
      else RingClean s
  | .key _ _ false _ => RingClean s
  | .task now => s.enabled = true → s.timer ≠ 0 → s.longestTerm < timerElapsed now s.timer → RingClean s
  | _ => True

instance (cfg : ComboConfig) (s : ComboState w) : (step : ComboStep) → Decidable (step.Kept cfg s)
  | .key keycode _ true _ => inferInstanceAs (Decidable (isComboSwitch keycode = true ∨
      if (List.range cfg.combos.length).any (takesPress cfg s keycode) = true then
        s.keyBuffer.length < cfg.keyBufferLength
      else RingClean s))
  | .key _ _ false _ => inferInstanceAs (Decidable (RingClean s))
  | .task now => inferInstanceAs (Decidable (s.enabled = true → s.timer ≠ 0 →
      s.longestTerm < timerElapsed now s.timer → RingClean s))
  | .enable | .disable | .toggle => inferInstanceAs (Decidable True)

def KeptRun (cfg : ComboConfig) (handOn : ComboEntry → ComboState w → ComboState w) : ComboState w →
    List ComboStep → Prop
  | _, [] => True
  | s, step :: steps => step.Kept cfg s ∧ KeptRun cfg handOn (step.exec cfg handOn s) steps

instance decidableKeptRun : (s : ComboState w) → (steps : List ComboStep) → Decidable (KeptRun cfg handOn s steps)
  | _, [] => inferInstanceAs (Decidable True)
  | s, step :: steps =>
    have := decidableKeptRun (step.exec cfg handOn s) steps
    inferInstanceAs (Decidable (step.Kept cfg s ∧ KeptRun cfg handOn (step.exec cfg handOn s) steps))

theorem KeptInv.press (hquiet : Quiet handOn) (h : KeptInv cfg s) {position : KeyPos}
    (hkept : (ComboStep.key keycode position true now).Kept cfg s) :
    KeptInv cfg ((ComboStep.key keycode position true now).exec cfg handOn s) := by
  have hdown : KeptInv cfg (s.write (.keyDown keycode)) := KeepInv.write h ⟨rfl, rfl, fun _ _ => ComboEntry.noConfusion⟩
  cases hswitch : isComboSwitch keycode with
  | true =>
    rw [exec_switch hswitch]
    split
    · exact hdown.timers _ _ true
    · split
      · exact hdown.comboDisable hquiet
      · exact hdown.comboToggle hquiet
  | false =>
    have hkept' := (show _ ∨ _ from hkept).resolve_left (by simp [hswitch])
    obtain ⟨record, htype, heq⟩ := @exec_key w cfg handOn keycode now s position hswitch
    rw [heq]
    have hanswer : (processSingleCombos cfg handOn keycode now true (List.range cfg.combos.length) false
        (s.write (.keyDown keycode))).1 = (List.range cfg.combos.length).any (takesPress cfg s keycode) :=
      processSingleCombos_answer List.nodup_range
    have hpressLoop := @KeepInv.pressLoop w cfg handOn hquiet _ keycode now List.mem_cons_self
      (List.range cfg.combos.length) false _ (KeepInv.mono hdown fun k hk => List.mem_cons_of_mem keycode hk)
    have hotherLoop := fun hnone => @KeepInv.otherLoop w cfg handOn hquiet _ keycode now true
      (List.range cfg.combos.length) false (s.write (.keyDown keycode)) List.nodup_range hnone hdown
    generalize processSingleCombos cfg handOn keycode now true (List.range cfg.combos.length) false
      (s.write (.keyDown keycode)) = result at hanswer hpressLoop hotherLoop ⊢
    obtain ⟨any, s'⟩ := result
    dsimp only at hanswer hpressLoop hotherLoop ⊢
    cases any with
    | true =>
      rw [if_pos hanswer.symm] at hkept'
      obtain ⟨hinv, hbuffer⟩ := hpressLoop
      have hbuffer' : s'.keyBuffer = s.keyBuffer := hbuffer
      refine KeepInv.consumeKey ?_ htype (by rw [hbuffer']; exact hkept') now
      rw [hbuffer']
      exact hinv
    | false =>
      rw [if_neg (by rw [← hanswer]; exact Bool.false_ne_true)] at hkept'
      have hnone : ∀ i ∈ List.range cfg.combos.length, takesPress cfg (s.write (.keyDown keycode)) keycode i = false := by
        intro i hi
        rw [← Bool.not_eq_true]
        intro htake
        have hany := List.any_eq_true.mpr ⟨i, hi, show takesPress cfg s keycode i = true from htake⟩
        rw [← hanswer] at hany
        cases hany
      obtain ⟨hinv, hclean, hbuffer⟩ := hotherLoop (fun _ => hnone) hkept'
      refine KeptInv.applyOrDump hquiet ?_ hclean
      rw [KeptInv, hbuffer]
      exact hinv

theorem KeptInv.release (hquiet : Quiet handOn) (h : KeptInv cfg s) {position : KeyPos} (hclean : RingClean s) :
    KeptInv cfg ((ComboStep.key keycode position false now).exec cfg handOn s) := by
  have hup : KeptInv cfg (s.write (.keyUp keycode)) := KeepInv.write h ⟨rfl, rfl, fun _ _ => ComboEntry.noConfusion⟩
  obtain ⟨hinv, hcleanBehind, hbuffer⟩ := @KeepInv.otherLoop w cfg handOn hquiet _ keycode now false
    (List.range cfg.combos.length) false _ List.nodup_range (fun hfalse => by cases hfalse) hup hclean
  rw [exec_release]
  refine KeptInv.applyOrDump hquiet ?_ hcleanBehind
  rw [KeptInv, hbuffer]
  exact hinv

theorem KeptInv.exec (hquiet : Quiet handOn) (h : KeptInv cfg s) {step : ComboStep} (hkept : step.Kept cfg s) :
    KeptInv cfg (step.exec cfg handOn s) := by
  cases step with
  | key keycode position pressed now =>
    cases pressed with
    | true => exact h.press hquiet hkept
    | false => exact h.release hquiet hkept
  | task now => exact h.comboTask hquiet hkept
  | enable => exact h.timers _ _ true
  | disable => exact h.comboDisable hquiet
  | toggle => exact h.comboToggle hquiet

theorem KeptInv.run (hquiet : Quiet handOn) {steps : List ComboStep} : ∀ {s : ComboState w}, KeptInv cfg s →
    KeptRun cfg handOn s steps → KeptInv cfg (runCombos cfg handOn s steps) := by
  induction steps with
  | nil => intro s h _; exact h
  | cons step steps ih =>
    intro s h hkept
    exact ih (h.exec hquiet hkept.1) hkept.2

/-- The presses that were kept back are those handed on, those that a combo took and those still in the buffer. A
combo takes presses of all its keys, and the next release leaves none in the buffer. -/
def PressesConserved (cfg : ComboConfig) (handOn : ComboEntry → ComboState w → ComboState w) (s : ComboState w) :
    Prop :=
  (consumedIn s.log).Perm (passedIn s.log ++ absorbedIn s.log ++ s.keyBuffer) ∧ TakenByKeys cfg s.log ∧
    ∀ keycode position now, ((ComboStep.key keycode position false now).exec cfg handOn s).keyBuffer = []

theorem presses_conserved (hquiet : Quiet handOn) {steps : List ComboStep}
    (hkept : KeptRun cfg handOn (.initial w) steps) :
    PressesConserved cfg handOn (runCombos cfg handOn (.initial w) steps) := by
  have hinit : KeptInv cfg (.initial w) := initial_keepInv cfg
  have h := hinit.run hquiet hkept
  generalize runCombos cfg handOn (.initial w) steps = s at h
  refine ⟨?_, h.ledger.taken, fun keycode position now => ?_⟩
  · have hplain : plainIn s.keyBuffer = s.keyBuffer := by
      rw [plainIn, List.filter_eq_self]
      exact fun q hq => decide_eq_true (h.plain q hq)
    have hconserved := h.ledger.conserved
    rw [hplain] at hconserved
    exact hconserved
  · have hpressed : (Record.raw ⟨position, UInt16.ofNat now, .key, false⟩ 0).event.pressed = false := rfl
    rw [ComboStep.exec, processCombo]
    simp only [hpressed, Bool.false_eq_true, ↓reduceIte, and_false, false_and]
    exact applyOrDump_keyBuffer _

def nineCombos : ComboConfig where
  combos := (List.range 9).map fun i => ⟨[0x04 + i, 0x1D], 0x1E⟩
  term _ := 50
  keyBufferLength := 8
  comboBufferLength := 4
  strictTimer := false

def chordOfTwo : List ComboStep :=
  [.key 0x04 ⟨0, 0⟩ true 100, .key 0x1D ⟨1, 0⟩ true 110, .task 200]

theorem presses_conserved_chordOfTwo :
    PressesConserved nineCombos onlyLogged (runCombos nineCombos onlyLogged (.initial 8) chordOfTwo) ∧
      (absorbedIn (runCombos nineCombos onlyLogged (.initial 8) chordOfTwo).log).length = 2 :=
  ⟨presses_conserved quiet_onlyLogged (by decide +kernel), by decide +kernel⟩

/-- The first nine letters pressed within the term, then a tick behind it. -/
def nineLetters : List ComboStep :=
  ((List.range 9).map fun i => .key (0x04 + i) ⟨0, i⟩ true (100 + i)) ++ [.task 300]

/-- The ninth press is kept back and not stored. -/
theorem press_lost : ¬ ∀ (cfg : ComboConfig) (handOn : ComboEntry → ComboState 8 → ComboState 8)
    (steps : List ComboStep), Quiet handOn → PressesConserved cfg handOn (runCombos cfg handOn (.initial 8) steps) := by
  intro h
  have hlength := (h nineCombos onlyLogged nineLetters quiet_onlyLogged).1.length_eq
  have hconsumed : (consumedIn (runCombos nineCombos onlyLogged (.initial 8) nineLetters).log).length = 9 := by
    decide +kernel
  have hrest : (passedIn (runCombos nineCombos onlyLogged (.initial 8) nineLetters).log ++
      absorbedIn (runCombos nineCombos onlyLogged (.initial 8) nineLetters).log ++
        (runCombos nineCombos onlyLogged (.initial 8) nineLetters).keyBuffer).length = 8 := by
    decide +kernel
  omega

end Keys
end VialQmk
