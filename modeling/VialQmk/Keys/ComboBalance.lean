import VialQmk.Keys.ComboWatch

/-!
# Keys.ComboBalance

Each activation of a combo presses its output once and releases it once.

* `combos_balanced`: in a run without one-key combos that are released early, and without two keys of one keycode
  held at a time, the log of every combo stays in order.
* `oneKeyCombo_stays_active`: a one-key combo that is tapped is never released.
-/

namespace VialQmk
namespace Keys

variable {w : Nat} {cfg : ComboConfig} {handOn : ComboEntry → ComboState w → ComboState w}

/-! ## The loop for a press -/

variable {s : ComboState w} {keyIndex : Nat} {rem : List Nat}

theorem PressInv.start {key : Nat} (h : BalanceInv cfg s) (hkey : key ∉ heldKeys s.log) (rem : List Nat)
    (hrem : ∀ c ∈ s.comboBuffer, c ∈ rem) (hall : ∀ i, i ∉ rem → (cfg.combo i).keys = []) :
    PressInv cfg key rem false (s.write (.keyDown key)) := by
  have hheld : heldKeys (s.write (.keyDown key)).log = key :: heldKeys s.log := heldKeys_snoc _ _
  have hphase : ∀ i, (watch cfg i (s.write (.keyDown key)).log).phase = (watch cfg i s.log).phase := by
    intro i
    rw [ComboState.write, watch_snoc]
    rfl
  constructor
  · exact ⟨h.base.next, h.base.size, hheld ▸ List.nodup_cons.mpr ⟨hkey, h.base.heldNodup⟩, h.base.plain,
      h.base.marks, h.base.disabled, h.base.ringNodup, h.base.ringNonempty, h.base.ringOff⟩
  · rw [hheld]
    exact List.mem_cons_self
  · intro k hk
    rw [hheld]
    exact List.mem_cons_of_mem _ (h.bufferHeld k hk)
  · intro i k hk
    rw [hheld]
    exact List.mem_cons_of_mem _ (h.marked i k hk)
  · exact fun i _ hmarked => hkey (h.marked i key hmarked)
  · exact h.covered
  · intro _ i hi _ _ _ hmem
    rw [hall i hi] at hmem
    cases hmem
  · intro c hc hamong
    refine hamong.elim (fun hnot => absurd (hrem c hc) hnot) fun hmem c' hc' hne hshares hcomplete => ?_
    refine h.apart c hc trivial c' hc' hne hshares ⟨hcomplete.fits, fun k hk => ?_⟩
    rcases List.mem_cons.mp (hcomplete.keys k hk) with rfl | hin
    · exact absurd hk hmem
    · exact hin
  · intro i
    obtain ⟨hidle, hdown⟩ := h.follows i
    exact ⟨fun hactive => (hphase i).trans (hidle hactive), fun hactive => by rw [hphase i]; exact hdown hactive⟩
  · intro hfalse
    cases hfalse

theorem PressInv.skip {key index : Nat} {any : Bool} (h : PressInv cfg key (index :: rem) any s)
    (hcovered : s.enabled = true → ReadyMarked cfg s index key)
    (hapart : index ∈ s.comboBuffer → key ∈ (cfg.combo index).keys → (s.flags index).disabled = true) :
    PressInv cfg key rem any s where
  base := h.base
  keyHeld := h.keyHeld
  bufferHeld := h.bufferHeld
  marked := h.marked
  unmarked i hi := h.unmarked i (List.mem_cons_of_mem _ hi)
  covered := h.covered
  coveredKey henabled i hi := by
    by_cases heq : i = index
    · rw [heq]
      exact hcovered henabled
    · refine h.coveredKey henabled i fun hmem => ?_
      exact hi ((List.mem_cons.mp hmem).resolve_left heq)
  apart c hc hamong c' hc' hne hshares hcomplete := by
    by_cases heq : c = index
    · by_cases hkey : key ∈ (cfg.combo index).keys
      · rw [heq] at hc ⊢
        exact .inl (hapart hc hkey)
      · rw [← heq] at hkey
        exact h.apart c hc (.inr hkey) c' hc' hne hshares hcomplete
    · refine h.apart c hc (hamong.imp_left fun hnot hmem => ?_) c' hc' hne hshares hcomplete
      exact hnot ((List.mem_cons.mp hmem).resolve_left heq)
  follows := h.follows
  answered := h.answered

/-! ### The press of a key of an inactive combo -/

namespace KeyPressed

variable {s s' : ComboState w} {index keyIndex keyCount key : Nat}

theorem log_eq (h : KeyPressed cfg index keyIndex keyCount s s') : s'.log = s.log := by rw [h.frame]

theorem keyBuffer_eq (h : KeyPressed cfg index keyIndex keyCount s s') : s'.keyBuffer = s.keyBuffer := by rw [h.frame]

theorem enabled_eq (h : KeyPressed cfg index keyIndex keyCount s s') : s'.enabled = s.enabled := by rw [h.frame]

theorem marked_same {k : Nat} (h : KeyPressed cfg index keyIndex keyCount s s')
    (hkey : (cfg.combo index).keyIndex key = some keyIndex) :
    (cfg.combo index).Marked (s'.flags index).state k ↔
      (cfg.combo index).Marked (s.flags index).state k ∨ k = key ∧ keyIndex < w := by
  rw [h.state_same]
  exact Combo.marked_keyStateDown hkey

theorem marks (h : KeyPressed cfg index keyIndex keyCount s s')
    (hkey : (cfg.combo index).keyIndex key = some keyIndex) (hmarks : ∀ i, (cfg.combo i).Marks (s.flags i).state)
    (i : Nat) : (cfg.combo i).Marks (s'.flags i).state := by
  by_cases hi : i = index
  · rw [hi, h.state_same]
    exact Combo.marks_keyStateDown hkey (hmarks index)
  · rw [h.state_other i hi]
    exact hmarks i

theorem readyMarked {i k : Nat} (h : KeyPressed cfg index keyIndex keyCount s s')
    (hkey : (cfg.combo index).keyIndex key = some keyIndex) (hk : ReadyMarked cfg s i k) :
    ReadyMarked cfg s' i k := by
  intro hactive hdis hfits hkeys
  have hold := hk ((h.active i).symm.trans hactive) (h.undisabled hdis) hfits hkeys
  by_cases hi : i = index
  · subst hi
    exact (h.marked_same hkey).mpr (.inl hold)
  · rw [h.state_other i hi]
    exact hold

theorem readyMarked_key (h : KeyPressed cfg index keyIndex keyCount s s')
    (hkey : (cfg.combo index).keyIndex key = some keyIndex) : ReadyMarked cfg s' index key := by
  intro _ _ hfits _
  have hlt := Nat.lt_of_lt_of_le (Combo.keyIndex_lt hkey) hfits.length_le
  exact (h.marked_same hkey).mpr (.inr ⟨rfl, hlt⟩)

theorem mem_ring {c : Nat} (h : KeyPressed cfg index keyIndex keyCount s s') (hc : c ∈ s'.comboBuffer) :
    c ∈ s.comboBuffer ∨ c = index := by
  rcases h.ring with hsub | ⟨-, kept, hkept, heq, -⟩
  · exact .inl (hsub.subset hc)
  · rw [heq, List.mem_append, List.mem_singleton] at hc
    exact hc.imp_left fun hc => hkept.subset hc

theorem base (h : KeyPressed cfg index keyIndex keyCount s s') (hbase : ComboInv cfg s)
    (hkey : (cfg.combo index).keyIndex key = some keyIndex) (henabled : s.enabled = true) : ComboInv cfg s' := by
  have hmem := Combo.mem_of_keyIndex hkey
  refine ⟨?_, ?_, ?_, ?_, h.marks hkey hbase.marks, fun i hi => ?_, ?_, fun c hc => ?_, fun hoff => ?_⟩
  · rw [h.frame]
    exact hbase.next
  · rw [h.keyBuffer_eq]
    exact hbase.size
  · rw [h.log_eq]
    exact hbase.heldNodup
  · rw [h.keyBuffer_eq]
    exact hbase.plain
  · rw [h.active i] at hi
    exact h.disabled i (hbase.disabled i hi)
  · rcases h.ring with hsub | ⟨-, kept, hkept, heq, hcleared⟩
    · exact hsub.nodup hbase.ringNodup
    · rw [heq]
      refine List.nodup_append.mpr ⟨hkept.nodup hbase.ringNodup, List.nodup_singleton _, fun a ha b hb => ?_⟩
      rw [List.mem_singleton.mp hb]
      rintro rfl
      exact (hcleared a ha ⟨key, hmem, hmem⟩).1 rfl
  · rcases h.mem_ring hc with hc | rfl
    · exact hbase.ringNonempty c hc
    · exact List.ne_nil_of_mem hmem
  · cases hoff.symm.trans (h.enabled_eq.trans henabled)

end KeyPressed

/-- The combo itself is fully pressed where all its keys are there, and clears those that it overlaps. -/
theorem PressInv.pressed_apart {s' : ComboState w} {key index : Nat} {any : Bool}
    (h : PressInv cfg key (index :: rem) any s) (hkey : (cfg.combo index).keyIndex key = some keyIndex)
    (hinactive : (s.flags index).active = false)
    (hpressed : KeyPressed cfg index keyIndex (cfg.combo index).keys.length s s') :
    Apart cfg s' (key :: keycodesIn s'.keyBuffer) fun c => c ∉ rem ∨ key ∉ (cfg.combo c).keys := by
  rw [hpressed.keyBuffer_eq]
  intro c hc hamong c' hc' hne hshares hcomplete
  by_cases heq : c = index
  · subst heq
    by_cases hdis : (s'.flags c).disabled = true
    · exact .inl hdis
    rw [Bool.not_eq_true] at hdis
    have hall : allComboKeysAreDown (s'.flags c).state (cfg.combo c).keys.length = true := by
      refine (Combo.allComboKeysAreDown_iff (hpressed.marks hkey h.base.marks c)
        (List.ne_nil_of_mem (Combo.mem_of_keyIndex hkey))).mpr ⟨hcomplete.fits, fun k hk => ?_⟩
      have hactive := (hpressed.active c).trans hinactive
      rcases List.mem_cons.mp (hcomplete.keys k hk) with rfl | hin
      · exact hpressed.readyMarked_key hkey hactive hdis hcomplete.fits hk
      · exact hpressed.readyMarked hkey (h.covered c k hin) hactive hdis hcomplete.fits hk
    rcases hpressed.prepared hall hc with hprepared | hprepared
    · exact .inl hprepared
    · exact .inr ((hprepared c' hc' hshares.symm).resolve_left (Ne.symm hne))
  · have hcOld : c ∈ s.comboBuffer := (hpressed.mem_ring hc).resolve_right heq
    by_cases heq' : c' ∈ s.comboBuffer
    · have hamong' : c ∉ index :: rem ∨ key ∉ (cfg.combo c).keys :=
        hamong.imp_left fun hnot hin => hnot ((List.mem_cons.mp hin).resolve_left heq)
      exact (h.apart c hcOld hamong' c' heq' hne hshares hcomplete).imp (hpressed.disabled c) (hpressed.disabled c')
    · -- the other one has just been prepared
      obtain rfl := (hpressed.mem_ring hc').resolve_left heq'
      rcases hpressed.ring with hsub | ⟨-, kept, hkept, hringEq, hcleared⟩
      · exact absurd (hsub.subset hc') heq'
      · rw [hringEq, List.mem_append, List.mem_singleton] at hc
        exact .inl (hcleared c (hc.resolve_right heq) hshares).2

theorem PressInv.pressed {s s' : ComboState w} {key index keyIndex : Nat} {rem : List Nat} {any : Bool}
    (h : PressInv cfg key (index :: rem) any s) (hrem : index ∉ rem)
    (hkey : (cfg.combo index).keyIndex key = some keyIndex) (hdisabled : (s.flags index).disabled = false)
    (henabled : s.enabled = true)
    (hpressed : KeyPressed cfg index keyIndex (cfg.combo index).keys.length s s') : PressInv cfg key rem true s' := by
  have hinactive := h.base.inactive hdisabled
  refine ⟨hpressed.base h.base hkey henabled, ?_, ?_, fun i k hk => ?_, fun i hi => ?_, ?_, fun _ i hi => ?_,
    h.pressed_apart hkey hinactive hpressed, fun i => ?_, fun _ => hpressed.enabled_eq.trans henabled⟩
  · rw [hpressed.log_eq]
    exact h.keyHeld
  · rw [hpressed.keyBuffer_eq, hpressed.log_eq]
    exact h.bufferHeld
  · rw [hpressed.log_eq]
    by_cases hi : i = index
    · subst hi
      rcases (hpressed.marked_same hkey).mp hk with hk | ⟨rfl, -⟩
      · exact h.marked i k hk
      · exact h.keyHeld
    · rw [hpressed.state_other i hi] at hk
      exact h.marked i k hk
  · have hne : i ≠ index := fun heq => hrem (heq ▸ hi)
    rw [hpressed.state_other i hne]
    exact h.unmarked i (List.mem_cons_of_mem _ hi)
  · rw [hpressed.keyBuffer_eq]
    exact fun i k hk => hpressed.readyMarked hkey (h.covered i k hk)
  · by_cases heq : i = index
    · rw [heq]
      exact hpressed.readyMarked_key hkey
    · refine hpressed.readyMarked hkey (h.coveredKey henabled i fun hin => ?_)
      exact hi ((List.mem_cons.mp hin).resolve_left heq)
  · obtain ⟨hidle, hdown⟩ := h.follows i
    constructor
    · intro hactive
      rw [hpressed.log_eq]
      exact hidle ((hpressed.active i).symm.trans hactive)
    · intro hactive
      rw [hpressed.active i] at hactive
      have hne : i ≠ index := by
        rintro rfl
        rw [hinactive] at hactive
        cases hactive
      rw [hpressed.log_eq, hpressed.state_other i hne]
      exact hdown hactive

theorem PressInv.step {key now index : Nat} {any : Bool} (h : PressInv cfg key (index :: rem) any s)
    (hrem : index ∉ rem) : PressInv cfg key rem (any || (processSingleCombo cfg handOn key now true index s).1)
      (processSingleCombo cfg handOn key now true index s).2 := by
  by_cases hmem : key ∈ (cfg.combo index).keys
  · obtain ⟨keyIndex, hkey⟩ := Combo.exists_keyIndex hmem
    by_cases hpart : (s.flags index).disabled = false ∧ s.enabled = true
    · obtain ⟨hdisabled, henabled⟩ := hpart
      have hinactive := h.base.inactive hdisabled
      rw [processSingleCombo_of_part hkey hdisabled henabled, Bool.or_true]
      exact h.pressed hrem hkey hdisabled henabled (comboKeyPressed_spec hinactive)
    · have hpart' : (s.flags index).disabled = true ∨ s.enabled = false := by
        rw [not_and_or, Bool.not_eq_false, Bool.not_eq_true] at hpart
        exact hpart
      rw [processSingleCombo_of_not_part hkey fun _ => hpart',
        comboKeyReleased_of_not_marked hkey (h.base.marks index) (h.unmarked index List.mem_cons_self), Bool.or_false]
      refine h.skip (fun henabled _ hdisabled => ?_) fun hring _ => ?_
      · rcases hpart' with hdis | hoff
        · rw [hdisabled] at hdis
          cases hdis
        · rw [henabled] at hoff
          cases hoff
      · refine hpart'.resolve_right fun hoff => ?_
        rw [h.base.ringOff hoff] at hring
        cases hring
  · rw [processSingleCombo_of_not_mem hmem, Bool.or_false]
    exact h.skip (fun _ _ _ _ hin => absurd hin hmem) fun _ hin => absurd hin hmem

theorem PressInv.loop {key now : Nat} : ∀ {rem : List Nat} {any : Bool} {s : ComboState w}, rem.Nodup →
    PressInv cfg key rem any s →
      PressInv cfg key [] (processSingleCombos cfg handOn key now true rem any s).1
        (processSingleCombos cfg handOn key now true rem any s).2 := by
  intro rem
  induction rem with
  | nil => intro any s _ h; exact h
  | cons index rem ih =>
    intro any s hnodup h
    obtain ⟨hnot, hnodup⟩ := List.nodup_cons.mp hnodup
    exact ih hnodup (h.step hnot)

/-! ## The loop for a release -/

theorem OutputPhase.keyUp_down (key : Nat) (keys : List Nat) :
    (OutputPhase.down keys).keyUp key = .down (keys.filter (· ≠ key)) := rfl

theorem ReleaseInv.start {key : Nat} (h : BalanceInv cfg s) (rem : List Nat)
    (hrem : ∀ i, i ∉ rem → (cfg.combo i).keys = [])
    (hsole : ∀ c ∈ s.comboBuffer, (s.flags c).disabled = false → (cfg.combo c).keys ≠ [key]) :
    ReleaseInv cfg key rem (s.write (.keyUp key)) := by
  have hheld : heldKeys (s.write (.keyUp key)).log = (heldKeys s.log).erase key := heldKeys_snoc _ _
  have hphase : ∀ i, (watch cfg i (s.write (.keyUp key)).log).phase = (watch cfg i s.log).phase.keyUp key := by
    intro i
    rw [ComboState.write, watch_snoc]
    rfl
  have herase : ∀ k, k ∈ heldKeys s.log → k ∈ (heldKeys s.log).erase key ∨ k = key := by
    intro k hk
    by_cases heq : k = key
    · exact .inr heq
    · exact .inl ((List.mem_erase_of_ne heq).mpr hk)
  constructor
  · exact ⟨h.base.next, h.base.size, hheld ▸ h.base.heldNodup.erase key, h.base.plain, h.base.marks,
      h.base.disabled, h.base.ringNodup, h.base.ringNonempty, h.base.ringOff⟩
  · rw [hheld]
    exact h.base.heldNodup.not_mem_erase
  · intro k hk
    rw [hheld]
    exact herase k (h.bufferHeld k hk)
  · intro i k hk
    rw [hheld]
    refine (herase k (h.marked i k hk)).imp_right fun heq => ⟨?_, heq⟩
    by_contra hi
    have hmem := Combo.Marked.mem hk
    rw [hrem i hi] at hmem
    cases hmem
  · exact fun i k hk _ => h.covered i k hk
  · exact h.apart
  · intro i
    obtain ⟨hidle, hdown⟩ := h.follows i
    constructor
    · intro hactive
      rw [hphase, hidle hactive]
      rfl
    · intro hactive
      obtain ⟨keys, hkeys, hmarked, k₀, hsome⟩ := hdown hactive
      refine ⟨keys.filter (· ≠ key), by rw [hphase, hkeys, OutputPhase.keyUp_down], fun k => ?_, k₀, hsome⟩
      have hin : i ∈ rem := by
        by_contra hi
        have hmem := Combo.Marked.mem hsome
        rw [hrem i hi] at hmem
        cases hmem
      rw [List.mem_filter, hmarked, decide_eq_true_eq]
      exact ⟨fun hk => ⟨hk.1.1, fun hgone => hk.2 hgone.2⟩,
        fun hk => ⟨⟨hk.1, not_false⟩, fun heq => hk.2 ⟨hin, heq⟩⟩⟩
  · exact hsole

theorem ReleaseInv.skip {key index : Nat} (h : ReleaseInv cfg key (index :: rem) s)
    (hmem : key ∉ (cfg.combo index).keys) : ReleaseInv cfg key rem s where
  base := h.base
  keyUp := h.keyUp
  bufferHeld := h.bufferHeld
  marked i k hk := by
    refine (h.marked i k hk).imp_right fun ⟨hi, heq⟩ => ⟨?_, heq⟩
    refine (List.mem_cons.mp hi).resolve_left fun hindex => hmem ?_
    rw [← hindex, ← heq]
    exact hk.mem
  covered := h.covered
  apart := h.apart
  follows i := by
    obtain ⟨hidle, hdown⟩ := h.follows i
    refine ⟨hidle, fun hactive => ?_⟩
    obtain ⟨keys, hkeys, hmarked, hsome⟩ := hdown hactive
    refine ⟨keys, hkeys, fun k => (hmarked k).trans (and_congr_right fun hk => not_congr ?_), hsome⟩
    rw [List.mem_cons]
    refine and_congr_left fun heq => or_iff_right fun hindex => hmem ?_
    rw [← hindex, ← heq]
    exact hk.mem
  sole := h.sole

/-- The bit of the key is taken out; the combo stays active through another key if it is active. -/
theorem ReleaseInv.keyUpBit {key index : Nat} (h : ReleaseInv cfg key (index :: rem) s) (hrem : index ∉ rem)
    (hkey : (cfg.combo index).keyIndex key = some keyIndex)
    (hother : (s.flags index).active = true → ∃ k, (cfg.combo index).Marked (s.flags index).state k ∧ k ≠ key) :
    ReleaseInv cfg key rem (s.modifyFlags index (.keyUp keyIndex)) := by
  have hactive : ∀ i, ((s.modifyFlags index (.keyUp keyIndex)).flags i).active = (s.flags i).active := by
    intro i
    by_cases hi : i = index
    · rw [hi, modifyFlags_same]
      rfl
    · rw [modifyFlags_other hi]
  have hdisabled : ∀ i, ((s.modifyFlags index (.keyUp keyIndex)).flags i).disabled = (s.flags i).disabled := by
    intro i
    by_cases hi : i = index
    · rw [hi, modifyFlags_same]
      rfl
    · rw [modifyFlags_other hi]
  have hsame : ∀ k, (cfg.combo index).Marked ((s.modifyFlags index (.keyUp keyIndex)).flags index).state k ↔
      (cfg.combo index).Marked (s.flags index).state k ∧ k ≠ key := by
    intro k
    rw [modifyFlags_same]
    exact Combo.marked_keyStateUp hkey
  have hne : ∀ {i}, i ≠ index → ((s.modifyFlags index (.keyUp keyIndex)).flags i).state = (s.flags i).state := by
    intro i hi
    rw [modifyFlags_other hi]
  refine ⟨⟨h.base.next, h.base.size, h.base.heldNodup, h.base.plain, fun i => ?_, fun i hi => ?_, h.base.ringNodup,
    h.base.ringNonempty, h.base.ringOff⟩, h.keyUp, h.bufferHeld, fun i k hk => ?_, fun i k hin hkne => ?_, ?_,
    fun i => ?_, fun c hc hdis => ?_⟩
  · by_cases hi : i = index
    · rw [hi, modifyFlags_same]
      exact Combo.marks_keyStateUp keyIndex (h.base.marks index)
    · rw [hne hi]
      exact h.base.marks i
  · rw [hactive] at hi
    rw [hdisabled]
    exact h.base.disabled i hi
  · by_cases hi : i = index
    · subst hi
      obtain ⟨hk, hkne⟩ := (hsame k).mp hk
      exact .inl ((h.marked i k hk).resolve_right fun hgone => hkne hgone.2)
    · rw [hne hi] at hk
      exact (h.marked i k hk).imp_right fun hgone => ⟨(List.mem_cons.mp hgone.1).resolve_left hi, hgone.2⟩
  · intro hinactive hdis hfits hmem
    have hold := h.covered i k hin hkne ((hactive i).symm.trans hinactive) ((hdisabled i).symm.trans hdis) hfits hmem
    by_cases hi : i = index
    · subst hi
      exact (hsame k).mpr ⟨hold, hkne⟩
    · rw [hne hi]
      exact hold
  · intro c hc _ c' hc' hcne hshares hcomplete
    rw [hdisabled, hdisabled]
    exact h.apart c hc trivial c' hc' hcne hshares hcomplete
  · obtain ⟨hidle, hdown⟩ := h.follows i
    constructor
    · intro hinactive
      exact hidle ((hactive i).symm.trans hinactive)
    · intro htrue
      rw [hactive] at htrue
      obtain ⟨keys, hkeys, hmarked, hsome⟩ := hdown htrue
      by_cases hi : i = index
      · subst hi
        refine ⟨keys, hkeys, fun k => ?_, ?_⟩
        · rw [hmarked, hsame]
          simp [hrem]
        · obtain ⟨k, hk, hkne⟩ := hother htrue
          exact ⟨k, (hsame k).mpr ⟨hk, hkne⟩⟩
      · rw [hne hi]
        refine ⟨keys, hkeys, fun k => ?_, hsome⟩
        rw [hmarked]
        simp [hi]
  · rw [hdisabled] at hdis
    exact h.sole c hc hdis

theorem ReleaseInv.ring {key : Nat} {ring : List Nat} (h : ReleaseInv cfg key rem s)
    (hsub : ring.Sublist s.comboBuffer) : ReleaseInv cfg key rem { s with comboBuffer := ring } := by
  refine ⟨⟨h.base.next, h.base.size, h.base.heldNodup, h.base.plain, h.base.marks, h.base.disabled,
    hsub.nodup h.base.ringNodup, fun c hc => h.base.ringNonempty c (hsub.subset hc), fun hoff => ?_⟩, h.keyUp,
    h.bufferHeld, h.marked, h.covered, fun c hc _ c' hc' => h.apart c (hsub.subset hc) trivial c' (hsub.subset hc'),
    fun i => ⟨(h.follows i).idle, (h.follows i).down⟩, fun c hc => h.sole c (hsub.subset hc)⟩
  rw [h.base.ringOff hoff] at hsub
  exact List.sublist_nil.mp hsub

/-- What the release of the last key of an active combo leaves. -/
structure ComboReleased (cfg : ComboConfig) (index keyIndex : Nat) (s s' : ComboState w) : Prop where
  frame : s' = { s with flags := s'.flags, log := s'.log }
  same : s'.flags index = ⟨(s.flags index).disabled, false, keyStateUp (s.flags index).state keyIndex⟩
  other : ∀ i, i ≠ index → s'.flags i = s.flags i
  heldKeys_eq : heldKeys s'.log = heldKeys s.log
  watch_same : (watch cfg index s'.log).phase = (watch cfg index s.log).phase.release
  watch_other : ∀ i, i ≠ index → watch cfg i s'.log = watch cfg i s.log

theorem releaseCombo_spec (hquiet : Quiet handOn) (s : ComboState w) (index keyIndex : Nat) :
    ComboReleased cfg index keyIndex s
      ((releaseCombo cfg handOn index s).modifyFlags index (.keyUp keyIndex)) := by
  obtain ⟨entry, hentry, hunconcerned, hwatch, hheld⟩ : ∃ entry,
      releaseCombo cfg handOn index s = (s.write entry).modifyFlags index .deactivate ∧
      (∀ i, i ≠ index → entry.Unconcerned i) ∧
      (∀ x, watchStep cfg index x entry = { x with phase := x.phase.release }) ∧
      ∀ held, heldStepKeys held entry = held := by
    rw [releaseCombo]
    split
    · refine ⟨.released index (cfg.combo index).keycode, ?_, fun i hi => Ne.symm hi, fun x => if_pos rfl, fun _ => rfl⟩
      rw [hquiet]
    · refine ⟨.comboEvent index false, ?_, fun i hi => Ne.symm hi, fun x => if_pos rfl, fun _ => rfl⟩
      rw [hquiet]
  rw [hentry]
  refine ⟨rfl, ?_, fun i hi => ?_, ?_, ?_, fun i hi => ?_⟩
  · rw [modifyFlags_same, modifyFlags_same]
    rfl
  · rw [modifyFlags_other hi, modifyFlags_other hi]
    rfl
  · exact (heldKeys_snoc s.log entry).trans (hheld _)
  · have hsnoc : watch cfg index (s.log ++ [entry]) = watchStep cfg index (watch cfg index s.log) entry :=
      watch_snoc ..
    exact congrArg Watch.phase (hsnoc.trans (hwatch _))
  · have hsnoc : watch cfg i (s.log ++ [entry]) = watchStep cfg i (watch cfg i s.log) entry := watch_snoc ..
    exact hsnoc.trans (watchStep_of_unconcerned (hunconcerned i hi) _)

namespace ComboReleased

variable {s s' : ComboState w} {index keyIndex : Nat}

theorem keyBuffer_eq (h : ComboReleased cfg index keyIndex s s') : s'.keyBuffer = s.keyBuffer := by rw [h.frame]

theorem comboBuffer_eq (h : ComboReleased cfg index keyIndex s s') : s'.comboBuffer = s.comboBuffer := by rw [h.frame]

theorem disabled_eq (h : ComboReleased cfg index keyIndex s s') (i : Nat) :
    (s'.flags i).disabled = (s.flags i).disabled := by
  by_cases hi : i = index
  · rw [hi, h.same]
  · rw [h.other i hi]

theorem base (h : ComboReleased cfg index keyIndex s s') (hbase : ComboInv cfg s) : ComboInv cfg s' := by
  refine ⟨?_, ?_, ?_, ?_, fun i => ?_, fun i hi => ?_, ?_, ?_, ?_⟩
  · rw [h.frame]
    exact hbase.next
  · rw [h.keyBuffer_eq]
    exact hbase.size
  · rw [h.heldKeys_eq]
    exact hbase.heldNodup
  · rw [h.keyBuffer_eq]
    exact hbase.plain
  · by_cases hi : i = index
    · rw [hi, h.same]
      exact Combo.marks_keyStateUp keyIndex (hbase.marks index)
    · rw [h.other i hi]
      exact hbase.marks i
  · by_cases heq : i = index
    · rw [heq, h.same] at hi
      cases hi
    · rw [h.other i heq] at hi ⊢
      exact hbase.disabled i hi
  · rw [h.comboBuffer_eq]
    exact hbase.ringNodup
  · rw [h.comboBuffer_eq]
    exact hbase.ringNonempty
  · rw [h.frame]
    exact hbase.ringOff

end ComboReleased

/-- The output that was pressed for the combo is released, and the other combos are as before. -/
theorem ReleaseInv.released_follows {s' : ComboState w} {key index : Nat} (h : ReleaseInv cfg key (index :: rem) s)
    (hactive : (s.flags index).active = true)
    (hlast : ∀ k, (cfg.combo index).Marked (s.flags index).state k → k = key)
    (hreleased : ComboReleased cfg index keyIndex s s') (i : Nat) : Follows cfg s' i fun k => i ∈ rem ∧ k = key := by
  obtain ⟨hidle, hdown⟩ := h.follows i
  by_cases hi : i = index
  · subst hi
    constructor
    · intro _
      obtain ⟨keys, hkeys, hmarkedKeys, -⟩ := hdown hactive
      have hempty : keys = [] := by
        rw [List.eq_nil_iff_forall_not_mem]
        intro k hk
        obtain ⟨hk, hgone⟩ := (hmarkedKeys k).mp hk
        exact hgone ⟨List.mem_cons_self, hlast k hk⟩
      rw [hreleased.watch_same, hkeys, hempty]
      rfl
    · intro htrue
      rw [hreleased.same] at htrue
      cases htrue
  · rw [← hreleased.other i hi] at hidle hdown
    refine ⟨fun hinactive => ?_, fun htrue => ?_⟩
    · rw [hreleased.watch_other i hi]
      exact hidle hinactive
    · obtain ⟨keys, hkeys, hmarkedKeys, hsome⟩ := hdown htrue
      refine ⟨keys, hreleased.watch_other i hi ▸ hkeys, fun k => ?_, hsome⟩
      rw [hmarkedKeys]
      simp [hi]

theorem ReleaseInv.released (hquiet : Quiet handOn) {key index : Nat} (h : ReleaseInv cfg key (index :: rem) s)
    (hkey : (cfg.combo index).keyIndex key = some keyIndex) (hactive : (s.flags index).active = true)
    (hmarked : (cfg.combo index).Marked (s.flags index).state key)
    (hone : onlyOneKeyIsDown (s.flags index).state = true) :
    ReleaseInv cfg key rem ((releaseCombo cfg handOn index s).modifyFlags index (.keyUp keyIndex)) := by
  have hlast := Combo.not_marked_of_onlyOneKeyIsDown hkey hmarked hone
  have hreleased := @releaseCombo_spec w cfg handOn hquiet s index keyIndex
  generalize (releaseCombo cfg handOn index s).modifyFlags index (.keyUp keyIndex) = s' at hreleased ⊢
  have hnone : ∀ k, ¬ (cfg.combo index).Marked (s'.flags index).state k := by
    intro k hk
    rw [hreleased.same] at hk
    obtain ⟨hk, hkne⟩ := (Combo.marked_keyStateUp hkey).mp hk
    exact hkne (hlast k hk)
  refine ⟨hreleased.base h.base, ?_, ?_, fun i k hk => ?_, ?_, ?_, h.released_follows hactive hlast hreleased, ?_⟩
  · rw [hreleased.heldKeys_eq]
    exact h.keyUp
  · rw [hreleased.keyBuffer_eq, hreleased.heldKeys_eq]
    exact h.bufferHeld
  · rw [hreleased.heldKeys_eq]
    by_cases hi : i = index
    · rw [hi] at hk
      exact absurd hk (hnone k)
    · rw [hreleased.other i hi] at hk
      exact (h.marked i k hk).imp_right fun hgone => ⟨(List.mem_cons.mp hgone.1).resolve_left hi, hgone.2⟩
  · rw [hreleased.keyBuffer_eq]
    intro i k hin hkne hinactive hdis hfits hmem
    by_cases hi : i = index
    · rw [hreleased.disabled_eq, hi, h.base.disabled index hactive] at hdis
      cases hdis
    · rw [hreleased.other i hi] at hinactive hdis ⊢
      exact h.covered i k hin hkne hinactive hdis hfits hmem
  · rw [hreleased.keyBuffer_eq]
    intro c hc _ c' hc' hcne hshares hcomplete
    rw [hreleased.comboBuffer_eq] at hc hc'
    rw [hreleased.disabled_eq, hreleased.disabled_eq]
    exact h.apart c hc trivial c' hc' hcne hshares hcomplete
  · intro c hc hdis
    rw [hreleased.comboBuffer_eq] at hc
    rw [hreleased.disabled_eq] at hdis
    exact h.sole c hc hdis

theorem ReleaseInv.step (hquiet : Quiet handOn) {key now index : Nat} (h : ReleaseInv cfg key (index :: rem) s)
    (hrem : index ∉ rem) : ReleaseInv cfg key rem (processSingleCombo cfg handOn key now false index s).2 := by
  by_cases hmem : key ∈ (cfg.combo index).keys
  · obtain ⟨keyIndex, hkey⟩ := Combo.exists_keyIndex hmem
    rw [processSingleCombo_of_not_part hkey (fun hpressed => by cases hpressed)]
    by_cases hmarked : (cfg.combo index).Marked (s.flags index).state key
    · have hbit := (Combo.marked_iff_keyNotYetReleased hkey).mp hmarked
      simp only [comboKeyReleased, hbit, and_true]
      split
      · rename_i hfull
        split
        · rename_i hdisabled
          obtain ⟨ring, hdrop, hsub⟩ := dropComboFromBuffer_of_disabled hdisabled
          rw [hdrop]
          refine (h.ring hsub).keyUpBit hrem hkey fun hactive => ?_
          have hinactive := hfull.1
          rw [show (s.flags index).active = true from hactive] at hinactive
          cases hinactive
        · refine h.keyUpBit hrem hkey fun hactive => ?_
          rw [hfull.1] at hactive
          cases hactive
      · split
        · rename_i hlast
          exact h.released hquiet hkey hlast.1 hmarked hlast.2
        · rename_i hnotLast
          have hother : (s.flags index).active = true →
              ∃ k, (cfg.combo index).Marked (s.flags index).state k ∧ k ≠ key := by
            intro hactive
            refine Combo.exists_marked_of_not_onlyOneKeyIsDown (h.base.marks index) hkey hmarked ?_
            rw [← Bool.not_eq_true]
            exact fun hone => hnotLast ⟨hactive, hone⟩
          split
          · exact h.keyUpBit hrem hkey hother
          · exact h.keyUpBit hrem hkey hother
    · rw [comboKeyReleased_of_not_marked hkey (h.base.marks index) hmarked]
      have hself : s.modifyFlags index (.keyUp keyIndex) = s := by
        apply modifyFlags_eq_self
        rw [ComboFlags.keyUp, Combo.keyStateUp_of_not_marked hkey hmarked]
      have hup := h.keyUpBit hrem hkey fun hactive => by
        obtain ⟨-, -, -, k, hk⟩ := (h.follows index).down hactive
        exact ⟨k, hk, fun heq => hmarked (heq ▸ hk)⟩
      rw [hself] at hup
      exact hup
  · rw [processSingleCombo_of_not_mem hmem]
    exact h.skip hmem

theorem ReleaseInv.loop (hquiet : Quiet handOn) {key now : Nat} : ∀ {rem : List Nat} {any : Bool} {s : ComboState w},
    rem.Nodup → ReleaseInv cfg key rem s →
      ReleaseInv cfg key [] (processSingleCombos cfg handOn key now false rem any s).2 := by
  intro rem
  induction rem with
  | nil => intro any s _ h; exact h
  | cons index rem ih =>
    intro any s hnodup h
    obtain ⟨hnot, hnodup⟩ := List.nodup_cons.mp hnodup
    exact ih hnodup (h.step hquiet hnot)

/-! ## The steps -/

theorem BalanceInv.ready (h : BalanceInv cfg s) : ReadyInv cfg s where
  base := h.base
  marked := h.marked
  covered i key hkey _ := h.covered i key hkey
  apart := h.apart
  follows := h.follows
  lives c hc _ hcomplete := by
    obtain ⟨key, hkey⟩ := List.exists_mem_of_ne_nil _ (h.base.ringNonempty c hc)
    exact ⟨key, hkey, h.bufferHeld key (hcomplete.keys key hkey)⟩

theorem PressInv.ready {key : Nat} {any : Bool} (h : PressInv cfg key [] any s) : ReadyInv cfg s where
  base := h.base
  marked := h.marked
  covered i k hk _ := h.covered i k hk
  apart c hc _ c' hc' hne hshares hcomplete :=
    h.apart c hc (.inl List.not_mem_nil) c' hc' hne hshares (hcomplete.mono fun _ hk => List.mem_cons_of_mem _ hk)
  follows := h.follows
  lives c hc _ hcomplete := by
    obtain ⟨k, hk⟩ := List.exists_mem_of_ne_nil _ (h.base.ringNonempty c hc)
    exact ⟨k, hk, h.bufferHeld k (hcomplete.keys k hk)⟩

theorem ReleaseInv.ready {key : Nat} (h : ReleaseInv cfg key [] s) : ReadyInv cfg s where
  base := h.base
  marked i k hk := (h.marked i k hk).resolve_right fun hgone => List.not_mem_nil hgone.1
  covered i k hk hheld := h.covered i k hk fun heq => h.keyUp (heq ▸ hheld)
  apart := h.apart
  follows i := by
    obtain ⟨hidle, hdown⟩ := h.follows i
    refine ⟨hidle, fun hactive => ?_⟩
    obtain ⟨keys, hkeys, hmarked, hsome⟩ := hdown hactive
    refine ⟨keys, hkeys, fun k => ?_, hsome⟩
    rw [hmarked]
    simp
  lives c hc hdisabled hcomplete := by
    -- a combo has another key than the one that went up
    have hother : ∃ k ∈ (cfg.combo c).keys, k ≠ key := by
      by_contra hnone
      apply h.sole c hc hdisabled
      have hall : ∀ k ∈ (cfg.combo c).keys, k = key := by
        intro k hk
        by_contra hne
        exact hnone ⟨k, hk, hne⟩
      cases hkeys : (cfg.combo c).keys with
      | nil => exact absurd hkeys hcomplete.fits.nonempty
      | cons k rest =>
        have hnodup := hcomplete.fits.nodup
        rw [hkeys] at hall hnodup
        obtain ⟨hnot, -⟩ := List.nodup_cons.mp hnodup
        have hrest : rest = [] := by
          rw [List.eq_nil_iff_forall_not_mem]
          intro k' hk'
          rw [hall k List.mem_cons_self, ← hall k' (List.mem_cons_of_mem _ hk')] at hnot
          exact hnot hk'
        rw [hrest, hall k List.mem_cons_self]
    obtain ⟨k, hk, hne⟩ := hother
    exact ⟨k, hk, (h.bufferHeld k (hcomplete.keys k hk)).resolve_right hne⟩

theorem BalanceInv.timers (h : BalanceInv cfg s) (longestTerm timer : Nat) :
    BalanceInv cfg { s with longestTerm := longestTerm, timer := timer } :=
  ⟨⟨h.base.next, h.base.size, h.base.heldNodup, h.base.plain, h.base.marks, h.base.disabled, h.base.ringNodup,
    h.base.ringNonempty, h.base.ringOff⟩, h.bufferHeld, h.marked, h.covered, h.apart,
    fun i => ⟨(h.follows i).idle, (h.follows i).down⟩⟩

theorem ReadyInv.applyOrDump (hquiet : Quiet handOn) (h : ReadyInv cfg s) :
    BalanceInv cfg (applyOrDump cfg handOn s) := by
  obtain ⟨timer, heq⟩ := @applyOrDump_eq w cfg handOn s
  rw [heq]
  exact (h.applyCombos hquiet).timers _ timer

theorem BalanceInv.comboTask (hquiet : Quiet handOn) (h : BalanceInv cfg s) (now : Nat) :
    BalanceInv cfg (comboTask cfg handOn now s) := by
  have happlied := h.ready.applyCombos hquiet
  rw [Keys.comboTask]
  split
  · exact h
  · split
    · split
      · exact happlied.timers 0 0
      · rename_i hempty
        rw [applyCombos_of_empty (not_not.mp hempty)] at happlied
        exact happlied.timers _ 0
    · exact h

theorem BalanceInv.comboDisable (hquiet : Quiet handOn) (h : BalanceInv cfg s) :
    BalanceInv cfg (comboDisable cfg handOn s) := by
  have hoff : ReadyInv cfg { s with timer := 0, enabled := false, comboBuffer := [] } :=
    ⟨⟨h.base.next, h.base.size, h.base.heldNodup, h.base.plain, h.base.marks, h.base.disabled, List.nodup_nil,
      (fun c hc => by cases hc), fun _ => rfl⟩, h.marked, fun i key hkey _ => h.covered i key hkey,
      (fun c hc => by cases hc), fun i => ⟨(h.follows i).idle, (h.follows i).down⟩, (fun c hc => by cases hc)⟩
  rw [comboDisable_eq hquiet h.base.next h.base.size]
  exact hoff.applyCombos hquiet

theorem BalanceInv.comboEnable (h : BalanceInv cfg s) : BalanceInv cfg (comboEnable s) :=
  ⟨⟨h.base.next, h.base.size, h.base.heldNodup, h.base.plain, h.base.marks, h.base.disabled, h.base.ringNodup,
    h.base.ringNonempty, fun hfalse => by cases hfalse⟩, h.bufferHeld, h.marked, h.covered, h.apart,
    fun i => ⟨(h.follows i).idle, (h.follows i).down⟩⟩

theorem PressInv.consumeKey {key : Nat} (h : PressInv cfg key [] true s) (record : Record)
    (hrecord : record.event.type ≠ .tick) (now : Nat) : BalanceInv cfg (consumeKey cfg key record now s) := by
  have hwrite : ∀ i, watch cfg i (s.log ++ [.consumed ⟨record, key, none⟩]) = watch cfg i s.log := by
    intro i
    rw [watch_snoc]
    rfl
  have hheld : heldKeys (s.log ++ [.consumed ⟨record, key, none⟩]) = heldKeys s.log := heldKeys_snoc _ _
  have hcovered : ∀ i, ∀ k, k ∈ keycodesIn s.keyBuffer ∨ k = key → ReadyMarked cfg s i k := by
    rintro i k (hk | rfl)
    · exact h.covered i k hk
    · exact h.coveredKey (h.answered rfl) i List.not_mem_nil
  have hfollows : ∀ i, ∀ s' : ComboState w, s'.flags = s.flags →
      s'.log = s.log ++ [.consumed ⟨record, key, none⟩] → Follows cfg s' i fun _ => False := by
    intro i s' hflags hlog
    obtain ⟨hidle, hdown⟩ := h.follows i
    rw [← hflags, ← hwrite, ← hlog] at hidle hdown
    exact ⟨hidle, hdown⟩
  -- with or without room for the press
  have hfinish : ∀ (buffer : List QueuedRecord) (timer : Nat), buffer.length ≤ cfg.keyBufferLength →
      (∀ q ∈ buffer, q ∈ s.keyBuffer ∨ q = ⟨record, key, none⟩) →
      BalanceInv cfg { s with keyBuffer := buffer, timer := timer, log := s.log ++ [.consumed ⟨record, key, none⟩] } := by
    intro buffer timer hsize hmem
    have hkeycodes : ∀ k ∈ keycodesIn buffer, k ∈ keycodesIn s.keyBuffer ∨ k = key := by
      intro k hk
      obtain ⟨q, hq, rfl⟩ := List.mem_map.mp hk
      rcases hmem q hq with hq | rfl
      · exact .inl (List.mem_map_of_mem hq)
      · exact .inr rfl
    refine ⟨⟨h.base.next, hsize, hheld ▸ h.base.heldNodup, fun q hq => ?_, h.base.marks, h.base.disabled,
      h.base.ringNodup, h.base.ringNonempty, h.base.ringOff⟩, fun k hk => ?_, fun i k hk => ?_, fun i k hk => ?_, ?_,
      fun i => hfollows i _ rfl rfl⟩
    · rcases hmem q hq with hq | rfl
      · exact h.base.plain q hq
      · exact ⟨rfl, hrecord⟩
    · rw [hheld]
      rcases hkeycodes k hk with hk | rfl
      · exact h.bufferHeld k hk
      · exact h.keyHeld
    · rw [hheld]
      exact h.marked i k hk
    · exact hcovered i k (hkeycodes k hk)
    · intro c hc _ c' hc' hne hshares hcomplete
      refine h.apart c hc (.inl List.not_mem_nil) c' hc' hne hshares (hcomplete.mono fun k hk => ?_)
      rcases hkeycodes k hk with hk | rfl
      · exact List.mem_cons_of_mem _ hk
      · exact List.mem_cons_self
  have hwith : ∀ timer, BalanceInv cfg (if s.keyBuffer.length < cfg.keyBufferLength then
      { s with
        keyBuffer := s.keyBuffer ++ [⟨record, key, none⟩]
        timer := timer
        log := s.log ++ [.consumed ⟨record, key, none⟩] }
      else { s with timer := timer, log := s.log ++ [.consumed ⟨record, key, none⟩] }) := by
    intro timer
    split
    · rename_i hlt
      refine hfinish _ timer (by rw [List.length_append, List.length_singleton]; omega) fun q hq => ?_
      exact (List.mem_append.mp hq).imp_right List.mem_singleton.mp
    · exact hfinish s.keyBuffer timer h.base.size fun q hq => .inl hq
  rw [Keys.consumeKey]
  split
  · exact hwith s.timer
  · exact hwith (now % 65536)

theorem BalanceInv.keyDown (h : BalanceInv cfg s) {key : Nat} (hkey : key ∉ heldKeys s.log) :
    BalanceInv cfg (s.write (.keyDown key)) := by
  have hheld : heldKeys (s.write (.keyDown key)).log = key :: heldKeys s.log := heldKeys_snoc _ _
  have hphase : ∀ i, (watch cfg i (s.write (.keyDown key)).log).phase = (watch cfg i s.log).phase := by
    intro i
    rw [ComboState.write, watch_snoc]
    rfl
  refine ⟨⟨h.base.next, h.base.size, hheld ▸ List.nodup_cons.mpr ⟨hkey, h.base.heldNodup⟩, h.base.plain,
    h.base.marks, h.base.disabled, h.base.ringNodup, h.base.ringNonempty, h.base.ringOff⟩, fun k hk => ?_,
    fun i k hk => ?_, h.covered, h.apart, fun i => ?_⟩
  · rw [hheld]
    exact List.mem_cons_of_mem _ (h.bufferHeld k hk)
  · rw [hheld]
    exact List.mem_cons_of_mem _ (h.marked i k hk)
  · obtain ⟨hidle, hdown⟩ := h.follows i
    exact ⟨fun hactive => (hphase i).trans (hidle hactive), fun hactive => by rw [hphase i]; exact hdown hactive⟩

theorem BalanceInv.comboToggle (hquiet : Quiet handOn) (h : BalanceInv cfg s) :
    BalanceInv cfg (comboToggle cfg handOn s) := by
  rw [Keys.comboToggle]
  split
  · exact h.comboDisable hquiet
  · exact h.comboEnable

/-! ## Runs -/

/-- No second key of a keycode that is down is pressed, and the key of a prepared one-key combo is not released. -/
def ComboStep.Sound (cfg : ComboConfig) (s : ComboState w) : ComboStep → Prop
  | .key keycode _ true _ => keycode ∉ heldKeys s.log
  | .key keycode _ false _ => ∀ c ∈ s.comboBuffer, (s.flags c).disabled = false → (cfg.combo c).keys ≠ [keycode]
  | _ => True

instance (cfg : ComboConfig) (s : ComboState w) : (step : ComboStep) → Decidable (step.Sound cfg s)
  | .key _ _ true _ => inferInstanceAs (Decidable (_ ∉ _))
  | .key keycode _ false _ =>
    inferInstanceAs (Decidable (∀ c ∈ s.comboBuffer, (s.flags c).disabled = false → (cfg.combo c).keys ≠ [keycode]))
  | .task _ | .enable | .disable | .toggle => inferInstanceAs (Decidable True)

def SoundRun (cfg : ComboConfig) (handOn : ComboEntry → ComboState w → ComboState w) : ComboState w →
    List ComboStep → Prop
  | _, [] => True
  | s, step :: steps => step.Sound cfg s ∧ SoundRun cfg handOn (step.exec cfg handOn s) steps

instance decidableSoundRun : (s : ComboState w) → (steps : List ComboStep) → Decidable (SoundRun cfg handOn s steps)
  | _, [] => inferInstanceAs (Decidable True)
  | s, step :: steps =>
    have := decidableSoundRun (step.exec cfg handOn s) steps
    inferInstanceAs (Decidable (step.Sound cfg s ∧ SoundRun cfg handOn (step.exec cfg handOn s) steps))

theorem BalanceInv.key (hquiet : Quiet handOn) {s : ComboState w} (h : BalanceInv cfg s) {keycode now : Nat}
    {position : KeyPos} {pressed : Bool} (hsound : (ComboStep.key keycode position pressed now).Sound cfg s) :
    BalanceInv cfg ((ComboStep.key keycode position pressed now).exec cfg handOn s) := by
  have hrange : ∀ i, i ∉ List.range cfg.combos.length → (cfg.combo i).keys = [] := by
    intro i hi
    by_contra hne
    exact hi (List.mem_range.mpr (lt_of_keys_ne_nil hne))
  cases pressed with
  | true =>
    have hdown := h.keyDown hsound
    cases hswitch : isComboSwitch keycode with
    | true =>
      rw [exec_switch hswitch]
      split
      · exact hdown.comboEnable
      · split
        · exact hdown.comboDisable hquiet
        · exact hdown.comboToggle hquiet
    | false =>
      obtain ⟨record, htype, heq⟩ := @exec_key w cfg handOn keycode now s position hswitch
      rw [heq]
      have hloop := @PressInv.loop w cfg handOn _ now _ _ _ List.nodup_range
        (PressInv.start h hsound (List.range cfg.combos.length)
          (fun c hc => List.mem_range.mpr (lt_of_keys_ne_nil (h.base.ringNonempty c hc))) hrange)
      generalize processSingleCombos cfg handOn keycode now true (List.range cfg.combos.length) false
        (s.write (.keyDown keycode)) = result at hloop ⊢
      obtain ⟨any, s'⟩ := result
      dsimp only at hloop ⊢
      cases any with
      | true => exact hloop.consumeKey record htype now
      | false => exact hloop.ready.applyOrDump hquiet
  | false =>
    rw [exec_release]
    exact ((ReleaseInv.start h (List.range cfg.combos.length) hrange hsound).loop hquiet
      List.nodup_range).ready.applyOrDump hquiet

theorem BalanceInv.exec (hquiet : Quiet handOn) (h : BalanceInv cfg s) {step : ComboStep} (hsound : step.Sound cfg s)
    : BalanceInv cfg (step.exec cfg handOn s) := by
  cases step with
  | key keycode position pressed now => exact h.key hquiet hsound
  | task now => exact h.comboTask hquiet now
  | enable => exact h.comboEnable
  | disable => exact h.comboDisable hquiet
  | toggle => exact h.comboToggle hquiet

theorem BalanceInv.run (hquiet : Quiet handOn) {steps : List ComboStep} : ∀ {s : ComboState w}, BalanceInv cfg s →
    SoundRun cfg handOn s steps → BalanceInv cfg (runCombos cfg handOn s steps) := by
  induction steps with
  | nil => intro s h _; exact h
  | cons step steps ih =>
    intro s h hsound
    exact ih (h.exec hquiet hsound.1) hsound.2

/-- Each combo is idle, or its output is pressed and some of its keys are still down. -/
def CombosInOrder (cfg : ComboConfig) (s : ComboState w) : Prop :=
  ∀ i, (s.flags i).active = false ∧ (watch cfg i s.log).phase = .idle ∨
    (s.flags i).active = true ∧ ∃ keys, (watch cfg i s.log).phase = .down keys ∧ keys ≠ [] ∧
      ∀ key ∈ keys, key ∈ (cfg.combo i).keys ∧ key ∈ heldKeys s.log

/-- In a sound run every activation of a combo is followed by one press of its output, that by one release, which
comes with the release of the combo's last key; with all keys up no combo is active. -/
theorem combos_balanced (hquiet : Quiet handOn) {steps : List ComboStep}
    (hsound : SoundRun cfg handOn (.initial w) steps) :
    CombosInOrder cfg (runCombos cfg handOn (.initial w) steps) ∧
      (heldKeys (runCombos cfg handOn (.initial w) steps).log = [] →
        ∀ i, ((runCombos cfg handOn (.initial w) steps).flags i).active = false) := by
  have h := (initial_balanceInv cfg).run hquiet hsound
  generalize runCombos cfg handOn (.initial w) steps = s at h
  constructor
  · intro i
    cases hactive : (s.flags i).active with
    | false => exact .inl ⟨rfl, (h.follows i).idle hactive⟩
    | true =>
      obtain ⟨keys, hkeys, hmarked, k, hk⟩ := (h.follows i).down hactive
      refine .inr ⟨rfl, keys, hkeys, ?_, fun key hkey => ?_⟩
      · exact List.ne_nil_of_mem ((hmarked k).mpr ⟨hk, not_false⟩)
      · have hkey := ((hmarked key).mp hkey).1
        exact ⟨hkey.mem, h.marked i key hkey⟩
  · intro hempty i
    rw [← Bool.not_eq_true]
    intro hactive
    obtain ⟨-, -, -, k, hk⟩ := (h.follows i).down hactive
    have hheld := h.marked i k hk
    rw [hempty] at hheld
    cases hheld

/-- Two combos, of A and B and of C alone, with outputs 1 and 2. -/
def smallCombos : ComboConfig where
  combos := [⟨[0x04, 0x05], 0x1E⟩, ⟨[0x06], 0x1F⟩]
  term _ := 50
  keyBufferLength := 8
  comboBufferLength := 4
  strictTimer := false

def holdTwoKeys : List ComboStep :=
  [.key 0x04 ⟨0, 0⟩ true 100, .key 0x05 ⟨0, 1⟩ true 110, .task 200, .key 0x04 ⟨0, 0⟩ false 300,
    .key 0x05 ⟨0, 1⟩ false 310]

theorem combos_balanced_twoKeys :
    CombosInOrder smallCombos (runCombos smallCombos onlyLogged (.initial 8) holdTwoKeys) ∧
      ((runCombos smallCombos onlyLogged (.initial 8) holdTwoKeys).flags 0).active = false := by
  have h := @combos_balanced 8 smallCombos onlyLogged quiet_onlyLogged holdTwoKeys (by decide +kernel)
  exact ⟨h.1, h.2 (by decide +kernel) 0⟩

def tapOneKey : List ComboStep :=
  [.key 0x06 ⟨0, 2⟩ true 100, .key 0x06 ⟨0, 2⟩ false 110, .task 1000]

/-- With all keys up the combo is still active, and stays so. -/
theorem oneKeyCombo_stays_active :
    ¬ ∀ (cfg : ComboConfig) (handOn : ComboEntry → ComboState 8 → ComboState 8) (steps : List ComboStep),
      Quiet handOn → CombosInOrder cfg (runCombos cfg handOn (.initial 8) steps) := by
  intro h
  have hactive : ((runCombos smallCombos onlyLogged (.initial 8) tapOneKey).flags 1).active = true := by
    decide +kernel
  have hphase : (watch smallCombos 1 (runCombos smallCombos onlyLogged (.initial 8) tapOneKey).log).phase =
      .down [] := by
    decide +kernel
  rcases h smallCombos onlyLogged tapOneKey quiet_onlyLogged 1 with ⟨hinactive, -⟩ | ⟨-, keys, hkeys, hne, -⟩
  · rw [hactive] at hinactive
    cases hinactive
  · rw [hphase] at hkeys
    cases hkeys
    exact hne rfl

/-- The second key of a keycode releases the output while the first is still down. -/
example : (runCombos smallCombos onlyLogged (.initial 8)
    [.key 0x04 ⟨0, 0⟩ true 100, .key 0x05 ⟨0, 1⟩ true 110, .task 200, .key 0x04 ⟨0, 0⟩ false 300,
      .key 0x05 ⟨1, 1⟩ true 310]).log.getLast? = some (.consumed ⟨.raw ⟨⟨1, 1⟩, 310, .key, true⟩ 0, 0x05, none⟩) ∧
    (.released 0 0x1E) ∈ (runCombos smallCombos onlyLogged (.initial 8)
    [.key 0x04 ⟨0, 0⟩ true 100, .key 0x05 ⟨0, 1⟩ true 110, .task 200, .key 0x04 ⟨0, 0⟩ false 300,
      .key 0x05 ⟨1, 1⟩ true 310]).log := by
  decide +kernel

end Keys
end VialQmk
