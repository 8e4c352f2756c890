import VialQmk.Keys.ComboConservation

/-!
# Keys.ComboFire

Which combos are to fire, and which do.

* `Chord`: the keys pressed since the key buffer was last emptied, and the combos that these presses complete, less
  those that the drop rule takes away. It knows neither the ring nor the bits of the combos.
* `completed_combos_fire`: in a run in which the two buffers have room, no prepared combo is dropped from behind
  another and none of its keys is pressed again, what is applied is what is due.
* `four_combos_lost`: the fourth of four combos makes the full ring look empty.
-/

namespace VialQmk
namespace Keys

variable {w : Nat} {cfg : ComboConfig} {handOn : ComboEntry → ComboState w → ComboState w}

/-! ## What is due -/

/-- The drop rule for a combo that has all its keys: whether one that is due supersedes it, and those that are left
of them. -/
def supersede (cfg : ComboConfig) (index : Nat) : List Nat → Bool × List Nat
  | [] => (false, [])
  | d :: due =>
    match overlaps cfg d index with
    | none => ((supersede cfg index due).1, d :: (supersede cfg index due).2)
    | some drop => if drop = index then (true, d :: due) else supersede cfg index due

def makeDue (cfg : ComboConfig) (due : List Nat) (index : Nat) : List Nat :=
  if (supersede cfg index due).1 = true then (supersede cfg index due).2 else (supersede cfg index due).2 ++ [index]

/-- The press is the last that the combo needs, and its term has not passed. -/
def completes (cfg : ComboConfig) (s : ComboState w) (held : List Nat) (keycode now index : Nat) : Bool :=
  s.enabled && !(s.flags index).disabled && decide (keycode ∈ (cfg.combo index).keys) &&
    (cfg.combo index).keys.all (fun key => decide (key ∈ keycode :: held)) &&
    !decide (s.timer ≠ 0 ∧ cfg.term index < timerElapsed now s.timer)

structure Chord where
  /-- The keys pressed since the buffer was last emptied, while combos were on. -/
  held : List Nat
  /-- The combos that are to be activated. -/
  due : List Nat
deriving DecidableEq, Repr

def Chord.empty : Chord := ⟨[], []⟩

def completing (cfg : ComboConfig) (s : ComboState w) (held : List Nat) (keycode now : Nat) : List Nat :=
  (List.range cfg.combos.length).filter (completes cfg s held keycode now)

def Chord.press (cfg : ComboConfig) (s : ComboState w) (keycode now : Nat) (chord : Chord) : Chord where
  held := if s.enabled = true then keycode :: chord.held else chord.held
  due := (completing cfg s chord.held keycode now).foldl (makeDue cfg) chord.due

def keepsBack (cfg : ComboConfig) (s : ComboState w) (keycode : Nat) : Bool :=
  (List.range cfg.combos.length).any (takesPress cfg s keycode)

/-- The step applies the prepared combos: a release, a press that no combo keeps back, the timeout. -/
def ComboStep.applies (cfg : ComboConfig) (s : ComboState w) : ComboStep → Bool
  | .key keycode _ true _ => !isComboSwitch keycode && !keepsBack cfg s keycode
  | .key _ _ false _ => true
  | .task now => s.enabled && decide (s.timer ≠ 0 ∧ s.longestTerm < timerElapsed now s.timer)
  | _ => false

def Chord.step (cfg : ComboConfig) (s : ComboState w) (step : ComboStep) (chord : Chord) : Chord :=
  if step.applies cfg s = true then .empty
  else
    match step with
    | .key keycode _ _ now =>
      if keycode = qkComboOn then chord
      else if keycode = qkComboOff then .empty
      else if keycode = qkComboToggle then if s.enabled = true then .empty else chord
      else chord.press cfg s keycode now
    | .task _ | .enable => chord
    | .disable => .empty
    | .toggle => if s.enabled = true then .empty else chord

def runChord (cfg : ComboConfig) (handOn : ComboEntry → ComboState w → ComboState w) : ComboState w × Chord →
    List ComboStep → ComboState w × Chord
  | x, [] => x
  | (s, chord), step :: steps => runChord cfg handOn (step.exec cfg handOn s, chord.step cfg s step) steps

/-! ## When the ring can follow -/

/-- A ring in which the combos find room one after the other, with those superseded in front. -/
def Settles (cfg : ComboConfig) : List Nat → List Nat → Prop
  | _, [] => True
  | due, index :: indices =>
    ((supersede cfg index due).2 <:+ due ∧ (makeDue cfg due index).length < cfg.comboBufferLength) ∧
      Settles cfg (makeDue cfg due index) indices

instance decidableSettles : (due indices : List Nat) → Decidable (Settles cfg due indices)
  | _, [] => inferInstanceAs (Decidable True)
  | due, index :: indices =>
    have := decidableSettles (makeDue cfg due index) indices
    inferInstanceAs (Decidable (_ ∧ _))

/-- There is room for the press, it is none of a prepared combo, the combos that it completes have different keys and
not too many, and the ring takes them. -/
structure RoomFor (cfg : ComboConfig) (s : ComboState w) (held : List Nat) (keycode now : Nat) : Prop where
  room : s.keyBuffer.length < cfg.keyBufferLength
  fresh : ∀ c ∈ s.comboBuffer, keycode ∉ (cfg.combo c).keys
  fits : ∀ c ∈ completing cfg s held keycode now, (cfg.combo c).Fits w
  settles : Settles cfg s.comboBuffer (completing cfg s held keycode now)

instance (combo : Combo) : Decidable (combo.Fits w) :=
  decidable_of_iff (combo.keys.Nodup ∧ combo.keys.length ≤ w ∧ combo.keys ≠ [])
    ⟨fun h => ⟨h.1, h.2.1, h.2.2⟩, fun h => ⟨h.nodup, h.length_le, h.nonempty⟩⟩

instance (s : ComboState w) (held : List Nat) (keycode now : Nat) : Decidable (RoomFor cfg s held keycode now) :=
  decidable_of_iff (s.keyBuffer.length < cfg.keyBufferLength ∧ (∀ c ∈ s.comboBuffer, keycode ∉ (cfg.combo c).keys) ∧
      (∀ c ∈ completing cfg s held keycode now, (cfg.combo c).Fits w) ∧
      Settles cfg s.comboBuffer (completing cfg s held keycode now))
    ⟨fun h => ⟨h.1, h.2.1, h.2.2.1, h.2.2.2⟩, fun h => ⟨h.room, h.fresh, h.fits, h.settles⟩⟩

/-! ## The drop rule and the ring -/

section

variable {index d drop : Nat} {due : List Nat}

theorem supersede_of_apart (h : overlaps cfg d index = none) : supersede cfg index (d :: due) =
    ((supersede cfg index due).1, d :: (supersede cfg index due).2) := by
  rw [supersede, h]

theorem supersede_of_self (h : overlaps cfg d index = some index) :
    supersede cfg index (d :: due) = (true, d :: due) := by
  rw [supersede, h]
  exact if_pos rfl

theorem supersede_of_other (h : overlaps cfg d index = some drop) (hne : drop ≠ index) :
    supersede cfg index (d :: due) = supersede cfg index due := by
  rw [supersede, h]
  exact if_neg hne

theorem supersede_sublist : ∀ due : List Nat, (supersede cfg index due).2.Sublist due := by
  intro due
  induction due with
  | nil => exact .refl _
  | cons d due ih =>
    cases h : overlaps cfg d index with
    | none =>
      rw [supersede_of_apart h]
      exact ih.cons_cons d
    | some drop =>
      by_cases hdrop : drop = index
      · rw [supersede_of_self (hdrop ▸ h)]
      · rw [supersede_of_other h hdrop]
        exact ih.cons d

theorem supersede_length (due : List Nat) : (supersede cfg index due).2.length ≤ due.length :=
  (supersede_sublist due).length_le

theorem mem_makeDue {i : Nat} (h : i ∈ makeDue cfg due index) : i ∈ due ∨ i = index := by
  rw [makeDue] at h
  split at h
  · exact .inl ((supersede_sublist due).subset h)
  · rcases List.mem_append.mp h with h | h
    · exact .inl ((supersede_sublist due).subset h)
    · exact .inr (List.mem_singleton.mp h)

theorem dropOverlaps_behind : ∀ {rest kept : List Nat} {s : ComboState w}, kept ≠ [] →
    (supersede cfg index rest).2 = rest →
      dropOverlaps cfg index kept rest s = ((supersede cfg index rest).1,
        { if (supersede cfg index rest).1 = true then s.modifyFlags index .disable else s with
          comboBuffer := kept ++ rest }) := by
  intro rest
  induction rest with
  | nil =>
    intro kept s _ _
    simp [dropOverlaps, supersede]
  | cons d rest ih =>
    intro kept s hkept hall
    rw [dropOverlaps]
    cases h : overlaps cfg d index with
    | none =>
      rw [supersede_of_apart h] at hall ⊢
      have hrest : (supersede cfg index rest).2 = rest := (List.cons.inj hall).2
      simp only [ih (List.append_ne_nil_of_right_ne_nil kept (List.cons_ne_nil d [])) hrest, List.append_assoc,
        List.singleton_append]
    | some drop =>
      by_cases hdrop : drop = index
      · rw [supersede_of_self (hdrop ▸ h)]
        simp [hdrop]
      · rw [supersede_of_other h hdrop] at hall
        have hlength := @supersede_length cfg index rest
        rw [hall, List.length_cons] at hlength
        omega

/-- What the loop over the prepared combos does if it drops none from behind another. -/
structure Superseded (cfg : ComboConfig) (index : Nat) (due : List Nat) (s : ComboState w)
    (result : Bool × ComboState w) : Prop where
  frame : result.2 = { s with flags := result.2.flags, comboBuffer := result.2.comboBuffer }
  answer : result.1 = (supersede cfg index due).1
  ring : result.2.comboBuffer = (supersede cfg index due).2
  flags : ∀ i, i ≠ index → i ∉ due ∨ i ∈ (supersede cfg index due).2 → result.2.flags i = s.flags i
  own : result.1 = false → result.2.flags index = s.flags index

theorem dropOverlaps_superseded : ∀ {due : List Nat} {s : ComboState w}, due.Nodup → index ∉ due →
    (supersede cfg index due).2 <:+ due → Superseded cfg index due s (dropOverlaps cfg index [] due s) := by
  intro due
  induction due with
  | nil =>
    intro s _ _ _
    exact ⟨rfl, rfl, rfl, fun _ _ _ => rfl, fun _ => rfl⟩
  | cons d due ih =>
    intro s hnodup hnot hsuffix
    obtain ⟨hd, hrest⟩ := List.nodup_cons.mp hnodup
    have hne : index ≠ d := fun h => hnot (h ▸ List.mem_cons_self)
    have hnot' : index ∉ due := fun h => hnot (List.mem_cons_of_mem d h)
    rw [dropOverlaps]
    cases h : overlaps cfg d index with
    | none =>
      rw [supersede_of_apart h] at hsuffix
      have hall : (supersede cfg index due).2 = due := by
        rcases List.suffix_cons_iff.mp hsuffix with heq | hin
        · exact (List.cons.inj heq).2
        · exact absurd (hin.subset List.mem_cons_self) hd
      dsimp only
      rw [dropOverlaps_behind (List.append_ne_nil_of_right_ne_nil [] (List.cons_ne_nil d [])) hall]
      refine ⟨?_, by rw [supersede_of_apart h], ?_, fun i hi _ => ?_, fun hfalse => ?_⟩
      · dsimp only
        split <;> rfl
      · rw [supersede_of_apart h, hall]
        rfl
      · dsimp only
        split
        · exact modifyFlags_other hi s _
        · rfl
      · dsimp only at hfalse ⊢
        rw [if_neg (by rw [hfalse]; exact Bool.false_ne_true)]
    | some drop =>
      by_cases hdrop : drop = index
      · have hself := @supersede_of_self cfg index d due (hdrop ▸ h)
        simp only [hdrop, ↓reduceIte]
        exact ⟨rfl, by rw [hself], by rw [hself]; rfl, fun i hi _ => modifyFlags_other hi s _, fun h => by cases h⟩
      · have hdropped : drop = d := (overlaps_eq_some h).resolve_right hdrop
        subst hdropped
        have hother := @supersede_of_other cfg index drop drop due h hdrop
        simp only [hdrop, ↓reduceIte]
        rw [hother] at hsuffix
        have hsuffix' : (supersede cfg index due).2 <:+ due := by
          rcases List.suffix_cons_iff.mp hsuffix with heq | hin
          · have hlength := @supersede_length cfg index due
            rw [heq, List.length_cons] at hlength
            omega
          · exact hin
        have hspec := @ih (s.modifyFlags drop .disable) hrest hnot' hsuffix'
        refine ⟨hspec.frame, hspec.answer.trans (by rw [hother]), hspec.ring.trans (by rw [hother]), fun i hi hmem => ?_,
          fun hfalse => (hspec.own hfalse).trans (modifyFlags_other hne s _)⟩
        rw [hother] at hmem
        have hid : i ≠ drop := by
          rintro rfl
          rcases hmem with hmem | hmem
          · exact hmem List.mem_cons_self
          · exact hd ((supersede_sublist due).subset hmem)
        rw [hspec.flags i hi (hmem.imp_left fun h hin => h (List.mem_cons_of_mem drop hin)), modifyFlags_other hid]

/-! ## One combo -/

/-- The press of a key of a combo that is not prepared, when the ring can follow. -/
structure ChordKey (cfg : ComboConfig) (index keyIndex : Nat) (due due' : List Nat) (s s' : ComboState w) : Prop where
  pressed : KeyPressed cfg index keyIndex (cfg.combo index).keys.length s s'
  ring : s'.comboBuffer = due'
  others : ∀ i, i ≠ index → i ∉ due ∨ i ∈ due' → (s'.flags i).disabled = (s.flags i).disabled
  own : index ∈ due' → (s'.flags index).disabled = false

/-- The bits say that all keys are down, and the term has not passed. -/
def ReadyBy (cfg : ComboConfig) (s : ComboState w) (index keyIndex now : Nat) : Prop :=
  allComboKeysAreDown (keyStateDown (s.flags index).state keyIndex) (cfg.combo index).keys.length = true ∧
    ¬ (s.timer ≠ 0 ∧ cfg.term index < timerElapsed now s.timer)

instance (cfg : ComboConfig) (s : ComboState w) (index keyIndex now : Nat) :
    Decidable (ReadyBy cfg s index keyIndex now) := inferInstanceAs (Decidable (_ ∧ _))

theorem comboKeyPressed_chord {keyIndex now : Nat} {s : ComboState w} (hinactive : (s.flags index).active = false)
    (hdisabled : (s.flags index).disabled = false) (hring : s.comboBuffer = due) (hnodup : due.Nodup)
    (hnot : index ∉ due) (hready : ReadyBy cfg s index keyIndex now →
      (supersede cfg index due).2 <:+ due ∧ (makeDue cfg due index).length < cfg.comboBufferLength) :
    ChordKey cfg index keyIndex due (if ReadyBy cfg s index keyIndex now then makeDue cfg due index else due) s
      (comboKeyPressed cfg index keyIndex (cfg.combo index).keys.length now s) := by
  have hpressed := @comboKeyPressed_spec w cfg index keyIndex (cfg.combo index).keys.length now s hinactive
  suffices h : (comboKeyPressed cfg index keyIndex (cfg.combo index).keys.length now s).comboBuffer =
      (if ReadyBy cfg s index keyIndex now then makeDue cfg due index else due) ∧
      (∀ i, i ≠ index → i ∉ due ∨ i ∈ (if ReadyBy cfg s index keyIndex now then makeDue cfg due index else due) →
        ((comboKeyPressed cfg index keyIndex (cfg.combo index).keys.length now s).flags i).disabled =
          (s.flags i).disabled) ∧
      (index ∈ (if ReadyBy cfg s index keyIndex now then makeDue cfg due index else due) →
        ((comboKeyPressed cfg index keyIndex (cfg.combo index).keys.length now s).flags index).disabled = false) from
    ⟨hpressed, h.1, h.2.1, h.2.2⟩
  rw [comboKeyPressed, if_pos hinactive]
  generalize hs₁ : ({ s.modifyFlags index (.keyDown keyIndex) with
    longestTerm := max s.longestTerm (cfg.term index) } : ComboState w) = s₁
  have hmarked : KeyMarked index keyIndex s s₁ := hs₁ ▸ keyMarked_keyDown s index keyIndex _
  have hring₁ : s₁.comboBuffer = due := hmarked.comboBuffer_eq.trans hring
  have htimer : s₁.timer = s.timer := by rw [hmarked.frame]
  have hown : (s₁.flags index).disabled = false := by
    rw [hmarked.same]
    exact hdisabled
  have hstate : (s₁.flags index).state = keyStateDown (s.flags index).state keyIndex := by
    rw [hmarked.same]
    rfl
  dsimp only
  rw [hstate, htimer]
  by_cases hall : allComboKeysAreDown (keyStateDown (s.flags index).state keyIndex)
      (cfg.combo index).keys.length = true
  · rw [if_pos hall]
    by_cases hlate : s.timer ≠ 0 ∧ cfg.term index < timerElapsed now s.timer
    · rw [if_pos hlate, if_neg fun h => h.2 hlate]
      refine ⟨hring₁, fun i hi _ => ?_, fun h => absurd h hnot⟩
      rw [modifyFlags_other hi, hmarked.other i hi]
    · have hby : ReadyBy cfg s index keyIndex now := ⟨hall, hlate⟩
      obtain ⟨hsuffix, hlength⟩ := hready hby
      rw [if_neg hlate, if_pos hby, hring₁]
      have hspec := @dropOverlaps_superseded w cfg index due s₁ hnodup hnot hsuffix
      generalize dropOverlaps cfg index [] due s₁ = result at hspec
      obtain ⟨dropped, s₂⟩ := result
      have hleft : (supersede cfg index due).2.Sublist due := supersede_sublist due
      cases hanswer : (supersede cfg index due).1 with
      | true =>
        have hdropped : dropped = true := hspec.answer.trans hanswer
        subst hdropped
        rw [makeDue, if_pos hanswer]
        refine ⟨hspec.ring, fun i hi hmem => ?_, fun h => absurd (hleft.subset h) hnot⟩
        rw [← hmarked.other i hi]
        exact congrArg ComboFlags.disabled (hspec.flags i hi hmem)
      | false =>
        have hdropped : dropped = false := hspec.answer.trans hanswer
        subst hdropped
        rw [makeDue, hanswer, if_neg Bool.false_ne_true] at hlength ⊢
        rw [List.length_append, List.length_singleton, ← hspec.ring] at hlength
        dsimp only at hlength ⊢
        rw [if_neg Bool.false_ne_true, pushCombo, if_neg (Nat.ne_of_lt hlength)]
        refine ⟨congrArg (· ++ [index]) hspec.ring, fun i hi hmem => ?_, fun _ => ?_⟩
        · rw [← hmarked.other i hi]
          refine congrArg ComboFlags.disabled (hspec.flags i hi (hmem.imp_right fun h => ?_))
          rcases List.mem_append.mp h with h | h
          · exact h
          · exact absurd (List.mem_singleton.mp h) hi
        · exact (congrArg ComboFlags.disabled (hspec.own rfl)).trans hown
  · rw [if_neg hall, if_neg fun h => hall h.1]
    exact ⟨hring₁, fun i hi _ => by rw [hmarked.other i hi], fun h => absurd h hnot⟩

end

/-! ## The loop over the combos -/

/-- In the loop at a press, with the combos still to come. The bits of a combo that is not disabled are the keys that
are held, and the new one once its turn is over. -/
structure ChordPress (cfg : ComboConfig) (s₀ : ComboState w) (held : List Nat) (keycode : Nat) (rem due : List Nat)
    (s : ComboState w) : Prop where
  keep : KeepInv cfg (keycode :: keycodesIn s.keyBuffer) s
  enabled : s.enabled = s₀.enabled
  timer : s.timer = s₀.timer
  ring : s.comboBuffer = due
  clean : RingClean s
  rest : ∀ i ∈ rem, keycode ∈ (cfg.combo i).keys → (s.flags i).disabled = (s₀.flags i).disabled
  fresh : ∀ i ∈ rem, i ∈ due → keycode ∉ (cfg.combo i).keys
  marked : ∀ i, (s.flags i).disabled = false → (cfg.combo i).Fits w → ∀ key ∈ (cfg.combo i).keys,
    (cfg.combo i).Marked (s.flags i).state key ↔ key ∈ held ∨ key = keycode ∧ i ∉ rem ∧ s₀.enabled = true

theorem comboKeyReleased_comboBuffer (hquiet : Quiet handOn) {index keyIndex keyCount : Nat} {part : Bool}
    {s : ComboState w} (hclean : RingClean s) :
    (comboKeyReleased cfg handOn index keyIndex keyCount part s).2.comboBuffer = s.comboBuffer := by
  have hdrop : (s.flags index).disabled = true → dropComboFromBuffer index s = s := by
    intro hdisabled
    rw [dropComboFromBuffer, if_neg]
    intro hmem
    rw [hclean index hmem] at hdisabled
    cases hdisabled
  simp only [comboKeyReleased]
  split
  · split
    · rename_i hdisabled
      rw [hdrop hdisabled]
      rfl
    · rfl
  · split
    · obtain ⟨e, -, hrelease⟩ := @releaseCombo_quiet w cfg handOn hquiet index s
      rw [hrelease]
      rfl
    · split <;> rfl

section

variable {s₀ s : ComboState w} {held due rem : List Nat} {keycode now index : Nat}

theorem ChordPress.skip (h : ChordPress cfg s₀ held keycode (index :: rem) due s)
    (hmem : keycode ∉ (cfg.combo index).keys) : ChordPress cfg s₀ held keycode rem due s :=
  { h with
    rest := fun i hi => h.rest i (List.mem_cons_of_mem index hi)
    fresh := fun i hi => h.fresh i (List.mem_cons_of_mem index hi)
    marked := fun i hdisabled hfits key hkey => by
      rw [h.marked i hdisabled hfits key hkey, List.mem_cons]
      by_cases hi : i = index
      · subst hi
        have hne : key ≠ keycode := fun heq => hmem (heq ▸ hkey)
        simp [hne]
      · simp [hi] }

theorem ChordPress.released (hquiet : Quiet handOn) (h : ChordPress cfg s₀ held keycode (index :: rem) due s)
    (hoff : s₀.enabled = false → held = []) {keyIndex : Nat} (hkey : (cfg.combo index).keyIndex keycode = some keyIndex)
    (hpart : (s.flags index).disabled = true ∨ s.enabled = false) (hnot : index ∉ rem) (part : Bool) :
    ChordPress cfg s₀ held keycode rem due
      (comboKeyReleased cfg handOn index keyIndex (cfg.combo index).keys.length part s).2 := by
  have hreleased := @comboKeyReleased_spec w cfg handOn hquiet index keyIndex (cfg.combo index).keys.length part s
  have hring := @comboKeyReleased_comboBuffer w cfg handOn hquiet index keyIndex (cfg.combo index).keys.length part s
    h.clean
  generalize (comboKeyReleased cfg handOn index keyIndex (cfg.combo index).keys.length part s).2 = s' at hreleased hring
  have hbuffer := hreleased.keyBuffer_eq
  have hdisabled := hreleased.disabled_eq
  refine ⟨?_, ?_, ?_, hring.trans h.ring, fun c hc => ?_, fun i hi hmem => ?_,
    fun i hi => h.fresh i (List.mem_cons_of_mem index hi), fun i hi hfits key hkeys => ?_⟩
  · rw [hbuffer]
    exact h.keep.released hkey hreleased
  · rw [hreleased.frame]
    exact h.enabled
  · rw [hreleased.frame]
    exact h.timer
  · rw [hdisabled]
    exact h.clean c (hring ▸ hc)
  · rw [hdisabled]
    exact h.rest i (List.mem_cons_of_mem index hi) hmem
  · rw [hdisabled] at hi
    have hold := h.marked i hi hfits key hkeys
    by_cases heq : i = index
    · -- combos are off, so no bit was set
      subst heq
      have hswitch : s₀.enabled = false := by
        rw [← h.enabled]
        exact hpart.resolve_left (by rw [hi]; exact Bool.false_ne_true)
      rw [hswitch, hoff hswitch] at hold
      rw [hswitch, hoff hswitch, hreleased.state, Combo.marked_keyStateUp hkey, hold]
      simp
    · rw [hreleased.other i heq, hold]
      simp [heq]

theorem ChordPress.pressed (h : ChordPress cfg s₀ held keycode (index :: rem) due s) {keyIndex : Nat}
    (hkey : (cfg.combo index).keyIndex keycode = some keyIndex) (hdisabled : (s.flags index).disabled = false)
    (hswitch : s.enabled = true) (hnot : index ∉ rem)
    (hfits : completes cfg s₀ held keycode now index = true → (cfg.combo index).Fits w)
    (hroom : completes cfg s₀ held keycode now index = true →
      (supersede cfg index due).2 <:+ due ∧ (makeDue cfg due index).length < cfg.comboBufferLength) :
    ChordPress cfg s₀ held keycode rem
      (if completes cfg s₀ held keycode now index = true then makeDue cfg due index else due)
      (comboKeyPressed cfg index keyIndex (cfg.combo index).keys.length now s) := by
  have hmem := Combo.mem_of_keyIndex hkey
  have hinactive := h.keep.inactive hdisabled
  have hdue : index ∉ due := fun hin => h.fresh index List.mem_cons_self hin hmem
  have hnodup : due.Nodup := h.ring ▸ h.keep.ringNodup
  have hmarksDown := Combo.marks_keyStateDown hkey (h.keep.marks index)
  have hdown : ∀ key ∈ (cfg.combo index).keys, (cfg.combo index).Fits w →
      ((cfg.combo index).Marked (keyStateDown (s.flags index).state keyIndex) key ↔ key ∈ keycode :: held) := by
    intro key hkeys hfit
    have hlt := Nat.lt_of_lt_of_le (Combo.keyIndex_lt hkey) hfit.length_le
    rw [Combo.marked_keyStateDown hkey, h.marked index hdisabled hfit key hkeys, List.mem_cons]
    simp [hlt, or_comm]
  have hready : ReadyBy cfg s index keyIndex now ↔ completes cfg s₀ held keycode now index = true := by
    rw [ReadyBy, Combo.allComboKeysAreDown_iff hmarksDown (List.ne_nil_of_mem hmem), h.timer, completes,
      ← h.rest index List.mem_cons_self hmem, hdisabled, ← h.enabled, hswitch]
    rw [completes, ← h.rest index List.mem_cons_self hmem, hdisabled, ← h.enabled, hswitch] at hfits
    simp only [Bool.not_false, Bool.and_self, Bool.true_and, hmem, decide_true, Bool.and_eq_true, List.all_eq_true,
      decide_eq_true_eq, Bool.not_eq_true', decide_eq_false_iff_not] at hfits ⊢
    constructor
    · rintro ⟨⟨hfit, hall⟩, htime⟩
      exact ⟨fun key hkeys => (hdown key hkeys hfit).mp (hall key hkeys), htime⟩
    · rintro ⟨hall, htime⟩
      have hfit := hfits ⟨hall, htime⟩
      exact ⟨⟨hfit, fun key hkeys => (hdown key hkeys hfit).mpr (hall key hkeys)⟩, htime⟩
  have hspec := @comboKeyPressed_chord w cfg index due keyIndex now s hinactive hdisabled h.ring hnodup hdue
    fun hby => hroom (hready.mp hby)
  simp only [hready] at hspec
  generalize comboKeyPressed cfg index keyIndex (cfg.combo index).keys.length now s = s' at hspec
  have hmore : ∀ i ∈ (if completes cfg s₀ held keycode now index = true then makeDue cfg due index else due),
      i ∈ due ∨ i = index := by
    intro i hi
    split at hi
    · exact mem_makeDue hi
    · exact .inl hi
  generalize (if completes cfg s₀ held keycode now index = true then makeDue cfg due index else due) = due' at *
  have hbuffer : s'.keyBuffer = s.keyBuffer := by rw [hspec.pressed.frame]
  have hne : ∀ i ∈ rem, i ≠ index := fun i hi heq => hnot (heq ▸ hi)
  refine ⟨?_, ?_, ?_, hspec.ring, fun c hc => ?_, fun i hi hmemi => ?_, fun i hi hin => ?_,
    fun i hi hfit key hkeys => ?_⟩
  · rw [hbuffer]
    exact h.keep.pressed List.mem_cons_self hkey hinactive hspec.pressed
  · rw [hspec.pressed.frame]
    exact h.enabled
  · rw [hspec.pressed.frame]
    exact h.timer
  · rw [hspec.ring] at hc
    by_cases heq : c = index
    · subst heq
      exact hspec.own hc
    · rw [hspec.others c heq (.inr hc)]
      exact h.clean c (by rw [h.ring]; exact (hmore c hc).resolve_right heq)
  · rw [hspec.others i (hne i hi) (.inl fun hin => h.fresh i (List.mem_cons_of_mem index hi) hin hmemi)]
    exact h.rest i (List.mem_cons_of_mem index hi) hmemi
  · exact h.fresh i (List.mem_cons_of_mem index hi) ((hmore i hin).resolve_right (hne i hi))
  · by_cases heq : i = index
    · subst heq
      rw [hspec.pressed.state_same, hdown key hkeys hfit, ← h.enabled, hswitch, List.mem_cons]
      simp [hnot, or_comm]
    · have hold := hspec.pressed.undisabled hi
      rw [hspec.pressed.state_other i heq, h.marked i hold hfit key hkeys]
      simp [heq]

theorem ChordPress.loop (hquiet : Quiet handOn) (hoff : s₀.enabled = false → held = []) : ∀ {rem due : List Nat}
    {any : Bool} {s : ComboState w}, rem.Nodup → ChordPress cfg s₀ held keycode rem due s →
      (∀ c ∈ rem.filter (completes cfg s₀ held keycode now), (cfg.combo c).Fits w) →
      Settles cfg due (rem.filter (completes cfg s₀ held keycode now)) →
        ChordPress cfg s₀ held keycode []
          ((rem.filter (completes cfg s₀ held keycode now)).foldl (makeDue cfg) due)
          (processSingleCombos cfg handOn keycode now true rem any s).2 := by
  intro rem
  induction rem with
  | nil => intro due any s _ h _ _; exact h
  | cons index rem ih =>
    intro due any s hnodup h hfits hsettles
    obtain ⟨hnot, hnodup⟩ := List.nodup_cons.mp hnodup
    rw [processSingleCombos]
    by_cases hmem : keycode ∈ (cfg.combo index).keys
    · obtain ⟨keyIndex, hkey⟩ := Combo.exists_keyIndex hmem
      by_cases hpart : (s.flags index).disabled = false ∧ s.enabled = true
      · rw [processSingleCombo_of_part hkey hpart.1 hpart.2]
        have hpressed := @ChordPress.pressed w cfg s₀ s held due rem keycode now index h keyIndex hkey hpart.1 hpart.2 hnot
          (fun hc => hfits index (by rw [List.filter_cons_of_pos hc]; exact List.mem_cons_self))
          (fun hc => by
            rw [List.filter_cons_of_pos hc] at hsettles
            exact hsettles.1)
        cases hc : completes cfg s₀ held keycode now index with
        | true =>
          rw [List.filter_cons_of_pos hc] at hfits hsettles ⊢
          rw [if_pos hc] at hpressed
          exact ih hnodup hpressed (fun c hin => hfits c (List.mem_cons_of_mem index hin)) hsettles.2
        | false =>
          rw [List.filter_cons_of_neg (by rw [hc]; exact Bool.false_ne_true)] at hfits hsettles ⊢
          rw [if_neg (by rw [hc]; exact Bool.false_ne_true)] at hpressed
          exact ih hnodup hpressed hfits hsettles
      · rw [not_and_or, Bool.not_eq_false, Bool.not_eq_true] at hpart
        have hc : ¬ completes cfg s₀ held keycode now index = true := by
          rw [completes, ← h.rest index List.mem_cons_self hmem, ← h.enabled]
          rcases hpart with hpart | hpart <;> simp [hpart]
        rw [processSingleCombo_of_not_part hkey fun _ => hpart]
        rw [List.filter_cons_of_neg hc] at hfits hsettles ⊢
        exact ih hnodup (h.released hquiet hoff hkey hpart hnot _) hfits hsettles
    · have hc : ¬ completes cfg s₀ held keycode now index = true := by
        simp [completes, hmem]
      rw [processSingleCombo_of_not_mem hmem]
      rw [List.filter_cons_of_neg hc] at hfits hsettles ⊢
      exact ih hnodup (h.skip hmem) hfits hsettles

end

/-! ## Activations -/

def ComboEntry.activated? : ComboEntry → Option Nat
  | .activated index _ => some index
  | _ => none

def activatedIn (log : List ComboEntry) : List Nat := log.filterMap ComboEntry.activated?

theorem activatedIn_append (log entries : List ComboEntry) :
    activatedIn (log ++ entries) = activatedIn log ++ activatedIn entries := List.filterMap_append

theorem activated?_of_uncounted {e : ComboEntry} (h : e.Uncounted) : e.activated? = none := by
  cases e with
  | activated index taken => exact absurd rfl (h.2.2 index taken)
  | _ => rfl

theorem activatedIn_callsIn (buffer : List QueuedRecord) : activatedIn (callsIn buffer) = [] := by
  rw [activatedIn, List.filterMap_eq_nil_iff]
  intro e he
  cases e with
  | activated index taken => exact absurd he ((@uncounted_call_consumed buffer).2.2 index taken)
  | _ => rfl

theorem activatedIn_activations (acts : List (Nat × List QueuedRecord)) :
    activatedIn (acts.map fun a => .activated a.1 a.2) = acts.map Prod.fst := by
  induction acts with
  | nil => rfl
  | cons a acts ih => exact congrArg (a.1 :: ·) ih

theorem activatedIn_single {e : ComboEntry} (h : e.Uncounted) (log : List ComboEntry) :
    activatedIn (log ++ [e]) = activatedIn log := by
  rw [activatedIn_append]
  simp [activatedIn, activated?_of_uncounted h]

theorem comboKeyPressed_frame (index keyIndex keyCount now : Nat) (s : ComboState w) : ∃ flags ring longestTerm,
    comboKeyPressed cfg index keyIndex keyCount now s =
        { s with flags := flags, comboBuffer := ring, longestTerm := longestTerm } ∧
      longestTerm ≤ max s.longestTerm (cfg.term index) := by
  rw [comboKeyPressed]
  generalize hs₁ : (if (s.flags index).active = false then
    { s.modifyFlags index (.keyDown keyIndex) with longestTerm := max s.longestTerm (cfg.term index) }
    else s : ComboState w) = s₁
  have hframe : s₁ = { s with flags := s₁.flags, longestTerm := s₁.longestTerm } ∧
      s₁.longestTerm ≤ max s.longestTerm (cfg.term index) := by
    rw [← hs₁]
    split
    · exact ⟨rfl, le_refl _⟩
    · exact ⟨rfl, le_max_left _ _⟩
  obtain ⟨heq, hterm⟩ := hframe
  dsimp only
  split
  · split
    · exact ⟨_, s.comboBuffer, s₁.longestTerm, by rw [heq]; rfl, hterm⟩
    · have hspec := @dropOverlaps_spec w cfg index s₁.comboBuffer [] s₁ fun b hb => by cases hb
      generalize dropOverlaps cfg index [] s₁.comboBuffer s₁ = result at hspec
      obtain ⟨dropped, s₂⟩ := result
      have hs₂ := hspec.frame
      dsimp only at hs₂ ⊢
      split
      · exact ⟨s₂.flags, s₂.comboBuffer, s₁.longestTerm, by rw [hs₂, heq], hterm⟩
      · exact ⟨s₂.flags, (pushCombo cfg index s₂).comboBuffer, s₁.longestTerm, by
          rw [pushCombo, hs₂, heq], hterm⟩
  · exact ⟨s₁.flags, s.comboBuffer, s₁.longestTerm, heq, hterm⟩

theorem comboKeyPressed_log (index keyIndex keyCount now : Nat) (s : ComboState w) :
    (comboKeyPressed cfg index keyIndex keyCount now s).log = s.log := by
  obtain ⟨flags, ring, longestTerm, heq, -⟩ := @comboKeyPressed_frame w cfg index keyIndex keyCount now s
  rw [heq]

theorem activatedIn_processSingleCombo (hquiet : Quiet handOn) (keycode now : Nat) (pressed : Bool) (index : Nat)
    (s : ComboState w) :
    activatedIn (processSingleCombo cfg handOn keycode now pressed index s).2.log = activatedIn s.log := by
  by_cases hmem : keycode ∈ (cfg.combo index).keys
  · obtain ⟨keyIndex, hkey⟩ := Combo.exists_keyIndex hmem
    by_cases hpart : pressed = true → (s.flags index).disabled = true ∨ s.enabled = false
    · rw [processSingleCombo_of_not_part hkey hpart]
      have hreleased := @comboKeyReleased_spec w cfg handOn hquiet index keyIndex (cfg.combo index).keys.length
        (!(s.flags index).disabled && s.enabled) s
      rcases hreleased.log with hlog | ⟨e, he, hlog⟩
      · rw [hlog]
      · rw [hlog, activatedIn_single he]
    · simp only [Classical.not_imp, not_or, Bool.not_eq_true, Bool.not_eq_false] at hpart
      obtain ⟨rfl, hdisabled, henabled⟩ := hpart
      rw [processSingleCombo_of_part hkey hdisabled henabled]
      exact congrArg activatedIn (comboKeyPressed_log index keyIndex _ now s)
  · rw [processSingleCombo_of_not_mem hmem]

theorem activatedIn_processSingleCombos (hquiet : Quiet handOn) (keycode now : Nat) (pressed : Bool) :
    ∀ (rem : List Nat) (any : Bool) (s : ComboState w),
      activatedIn (processSingleCombos cfg handOn keycode now pressed rem any s).2.log = activatedIn s.log := by
  intro rem
  induction rem with
  | nil => intro any s; rfl
  | cons index rem ih =>
    intro any s
    rw [processSingleCombos]
    exact (ih _ _).trans (activatedIn_processSingleCombo hquiet keycode now pressed index s)

theorem applyCombos_activates (hquiet : Quiet handOn) {s : ComboState w} (h : KeptInv cfg s) (hclean : RingClean s) :
    activatedIn (applyCombos cfg handOn s).log = activatedIn s.log ++ s.comboBuffer ∧
      (applyCombos cfg handOn s).comboBuffer = [] ∧
      ∀ i, ((applyCombos cfg handOn s).flags i).disabled = false →
        ((applyCombos cfg handOn s).flags i).state = 0 ∨ (cfg.combo i).keys = [] := by
  have hspec := applyLoop_spec h.appliable
  generalize hs₁ : s.comboBuffer.foldl (fun s index => applyCombo cfg index s) s = s₁ at hspec
  rw [applyCombos_eq hquiet hs₁ hspec h.next h.size]
  obtain ⟨kept, hring, -, hempty⟩ := hspec.ring
  rw [hempty hclean, List.append_nil] at hring
  obtain ⟨acts, hacts⟩ := hspec.activations
  have hall : s.comboBuffer.filter (Keys.applies cfg s) = s.comboBuffer := by
    rw [List.filter_eq_self]
    intro c hc
    exact (applies_complete (h.ringNonempty c hc)).mpr ⟨hclean c hc, h.prepared c hc (hclean c hc)⟩
  refine ⟨?_, hring, fun i hi => ?_⟩
  · dsimp only
    rw [activatedIn_append, activatedIn_callsIn, List.append_nil, hacts.log, activatedIn_append,
      activatedIn_activations, hacts.indices, hall]
  · dsimp only at hi ⊢
    rcases hspec.clearedFlags h.appliable h.disabled i with ⟨-, -, heq⟩ | ⟨-, hactive, heq⟩ | ⟨-, -, -, hzero | hkeys⟩
    · rw [heq] at hi
      cases hi
    · rw [heq, h.disabled i hactive] at hi
      cases hi
    · exact .inl hzero
    · exact .inr hkeys.1

/-! ## Between two steps -/

structure ChordInv (cfg : ComboConfig) (chord : Chord) (s : ComboState w) : Prop where
  kept : KeptInv cfg s
  ring : s.comboBuffer = chord.due
  clean : RingClean s
  marked : ∀ i, (s.flags i).disabled = false → (cfg.combo i).Fits w → ∀ key ∈ (cfg.combo i).keys,
    (cfg.combo i).Marked (s.flags i).state key ↔ key ∈ chord.held
  off : s.enabled = false → chord.held = []

section

variable {s : ComboState w} {chord : Chord}

theorem initial_chordInv (cfg : ComboConfig) : ChordInv cfg .empty (.initial w) where
  kept := initial_keepInv cfg
  ring := rfl
  clean := by intro c hc; cases hc
  marked i _ _ key _ := iff_of_false Combo.not_marked_zero List.not_mem_nil
  off _ := rfl

theorem ChordInv.timers (h : ChordInv cfg chord s) (longestTerm timer : Nat) (enabled : Bool)
    (hoff : enabled = false → chord.held = []) :
    ChordInv cfg chord { s with longestTerm := longestTerm, timer := timer, enabled := enabled } :=
  ⟨h.kept.timers longestTerm timer enabled, h.ring, h.clean, h.marked, hoff⟩

theorem applyCombos_chordInv (hquiet : Quiet handOn) (hkept : KeptInv cfg s) (hclean : RingClean s) :
    ChordInv cfg .empty (applyCombos cfg handOn s) := by
  obtain ⟨-, hring, hflags⟩ := applyCombos_activates hquiet hkept hclean
  refine ⟨hkept.applyCombos hquiet hclean, hring, fun c hc => ?_, fun i hi hfit key hkey => ?_, fun _ => rfl⟩
  · rw [hring] at hc
    cases hc
  · refine iff_of_false ?_ List.not_mem_nil
    rcases hflags i hi with hzero | hnone
    · rw [hzero]
      exact Combo.not_marked_zero
    · rw [hnone] at hkey
      cases hkey

theorem comboDisable_chordInv (hquiet : Quiet handOn) (hkept : KeptInv cfg s) :
    ChordInv cfg .empty (comboDisable cfg handOn s) := by
  have hoff : KeptInv cfg { s with timer := 0, enabled := false, comboBuffer := [] } :=
    ⟨hkept.next, hkept.size, hkept.plain, hkept.marks, hkept.disabled, List.nodup_nil, (fun c hc => by cases hc),
      hkept.backed, (fun c hc => by cases hc), (fun c hc => by cases hc), hkept.ledger.of_eq rfl rfl⟩
  rw [comboDisable_eq hquiet hkept.next hkept.size]
  exact applyCombos_chordInv hquiet hoff fun c hc => by cases hc

/-! ## The steps -/

/-- A step that applies the prepared combos, up to the timers. -/
def AppliedFrom (cfg : ComboConfig) (handOn : ComboEntry → ComboState w → ComboState w) (s t : ComboState w) : Prop :=
  ∃ s' : ComboState w, KeptInv cfg s' ∧ RingClean s' ∧ s'.comboBuffer = s.comboBuffer ∧
    activatedIn s'.log = activatedIn s.log ∧
    ∃ longestTerm timer enabled, t = { applyCombos cfg handOn s' with
      longestTerm := longestTerm, timer := timer, enabled := enabled }

theorem AppliedFrom.spec (hquiet : Quiet handOn) {t : ComboState w} (h : AppliedFrom cfg handOn s t) :
    ChordInv cfg .empty t ∧ activatedIn t.log = activatedIn s.log ++ s.comboBuffer ∧ t.comboBuffer = [] := by
  obtain ⟨s', hkept, hclean, hring, hlog, longestTerm, timer, enabled, rfl⟩ := h
  obtain ⟨hactivated, hempty, -⟩ := applyCombos_activates hquiet hkept hclean
  refine ⟨(applyCombos_chordInv hquiet hkept hclean).timers _ _ _ fun _ => rfl, ?_, hempty⟩
  rw [← hlog, ← hring]
  exact hactivated

theorem processSingleCombos_comboBuffer (hquiet : Quiet handOn) {keycode now : Nat} {pressed : Bool} :
    ∀ {rem : List Nat} {any : Bool} {s : ComboState w}, rem.Nodup →
      (pressed = true → ∀ i ∈ rem, takesPress cfg s keycode i = false) → RingClean s →
        (processSingleCombos cfg handOn keycode now pressed rem any s).2.comboBuffer = s.comboBuffer := by
  intro rem
  induction rem with
  | nil => intro any s _ _ _; rfl
  | cons index rem ih =>
    intro any s hnodup htakes hclean
    obtain ⟨hnot, hnodup⟩ := List.nodup_cons.mp hnodup
    rw [processSingleCombos]
    by_cases hmem : keycode ∈ (cfg.combo index).keys
    · obtain ⟨keyIndex, hkey⟩ := Combo.exists_keyIndex hmem
      have hpart : pressed = true → (s.flags index).disabled = true ∨ s.enabled = false := by
        intro hpressed
        have htake := htakes hpressed index List.mem_cons_self
        rw [takesPress, hkey] at htake
        simp only [Bool.or_eq_false_iff, Bool.and_eq_false_iff, Bool.not_eq_false'] at htake
        exact htake.1
      rw [processSingleCombo_of_not_part hkey hpart]
      have hreleased := @comboKeyReleased_spec w cfg handOn hquiet index keyIndex (cfg.combo index).keys.length
        (!(s.flags index).disabled && s.enabled) s
      have hring := @comboKeyReleased_comboBuffer w cfg handOn hquiet index keyIndex (cfg.combo index).keys.length
        (!(s.flags index).disabled && s.enabled) s hclean
      generalize comboKeyReleased cfg handOn index keyIndex (cfg.combo index).keys.length
        (!(s.flags index).disabled && s.enabled) s = result at hreleased hring
      obtain ⟨part, s'⟩ := result
      dsimp only at hreleased hring ⊢
      refine (ih hnodup (fun hpressed i hi => ?_) fun c hc => ?_).trans hring
      · rw [takesPress_congr (hreleased.other i fun heq => hnot (heq ▸ hi)) (by rw [hreleased.frame])]
        exact htakes hpressed i (List.mem_cons_of_mem index hi)
      · rw [hring] at hc
        by_cases heq : c = index
        · rw [heq, hreleased.disabled, ← heq]
          exact hclean c hc
        · rw [hreleased.other c heq]
          exact hclean c hc
    · rw [processSingleCombo_of_not_mem hmem]
      exact ih hnodup (fun hpressed i hi => htakes hpressed i (List.mem_cons_of_mem index hi)) hclean

def keyEntry (keycode : Nat) (pressed : Bool) : ComboEntry :=
  if pressed = true then .keyDown keycode else .keyUp keycode

theorem uncounted_keyEntry (keycode : Nat) (pressed : Bool) : (keyEntry keycode pressed).Uncounted := by
  cases pressed <;> exact ⟨rfl, rfl, fun _ _ => ComboEntry.noConfusion⟩

theorem otherLoop_applied (hquiet : Quiet handOn) (h : ChordInv cfg chord s) {keycode now : Nat} {pressed : Bool}
    (htakes : pressed = true → keepsBack cfg s keycode = false) :
    AppliedFrom cfg handOn s (applyOrDump cfg handOn (processSingleCombos cfg handOn keycode now pressed
      (List.range cfg.combos.length) false (s.write (keyEntry keycode pressed))).2) := by
  have hkept : KeptInv cfg (s.write (keyEntry keycode pressed)) := KeepInv.write h.kept (uncounted_keyEntry keycode pressed)
  have hnone : pressed = true → ∀ i ∈ List.range cfg.combos.length,
      takesPress cfg (s.write (keyEntry keycode pressed)) keycode i = false := by
    intro hpressed i hi
    have hall := htakes hpressed
    rw [keepsBack, List.any_eq_false] at hall
    exact (Bool.not_eq_true _).mp (hall i hi)
  obtain ⟨hinv, hclean, hbuffer⟩ := @KeepInv.otherLoop w cfg handOn hquiet _ keycode now pressed
    (List.range cfg.combos.length) false _ List.nodup_range hnone hkept h.clean
  have hring := @processSingleCombos_comboBuffer w cfg handOn hquiet keycode now pressed
    (List.range cfg.combos.length) false _ List.nodup_range hnone h.clean
  have hlog := @activatedIn_processSingleCombos w cfg handOn hquiet keycode now pressed
    (List.range cfg.combos.length) false (s.write (keyEntry keycode pressed))
  generalize (processSingleCombos cfg handOn keycode now pressed (List.range cfg.combos.length) false
    (s.write (keyEntry keycode pressed))).2 = s' at *
  obtain ⟨timer, heq⟩ := @applyOrDump_eq w cfg handOn s'
  refine ⟨s', ?_, hclean, hring, hlog.trans (activatedIn_single (uncounted_keyEntry keycode pressed) s.log), _, timer, _, heq⟩
  rw [KeptInv, hbuffer]
  exact hinv

def pressLoop (cfg : ComboConfig) (handOn : ComboEntry → ComboState w → ComboState w) (keycode now : Nat)
    (s : ComboState w) : ComboState w :=
  (processSingleCombos cfg handOn keycode now true (List.range cfg.combos.length) false (s.write (.keyDown keycode))).2

theorem exec_press {keycode now : Nat} (position : KeyPos) {s : ComboState w}
    (hswitch : isComboSwitch keycode = false) :
    ∃ record : Record, record.event.type ≠ .tick ∧ (ComboStep.key keycode position true now).exec cfg handOn s =
      if keepsBack cfg s keycode = true then consumeKey cfg keycode record now (pressLoop cfg handOn keycode now s)
      else applyOrDump cfg handOn (pressLoop cfg handOn keycode now s) := by
  have hanswer : (processSingleCombos cfg handOn keycode now true (List.range cfg.combos.length) false
      (s.write (.keyDown keycode))).1 = keepsBack cfg s keycode :=
    processSingleCombos_answer List.nodup_range
  obtain ⟨record, htype, heq⟩ := @exec_key w cfg handOn keycode now s position hswitch
  rw [hanswer] at heq
  exact ⟨record, htype, heq⟩

theorem exec_applied (hquiet : Quiet handOn) (h : ChordInv cfg chord s) {step : ComboStep}
    (happlies : step.applies cfg s = true) : AppliedFrom cfg handOn s (step.exec cfg handOn s) := by
  cases step with
  | key keycode position pressed now =>
    cases pressed with
    | true =>
      simp only [ComboStep.applies, Bool.and_eq_true, Bool.not_eq_true'] at happlies
      obtain ⟨hswitch, htakes⟩ := happlies
      obtain ⟨record, -, heq⟩ := @exec_press w cfg handOn keycode now position s hswitch
      rw [heq, if_neg (by simp [htakes])]
      exact otherLoop_applied hquiet h fun _ => htakes
    | false =>
      rw [exec_release]
      exact otherLoop_applied hquiet h fun hfalse => by cases hfalse
  | task now =>
    simp only [ComboStep.applies, Bool.and_eq_true, decide_eq_true_eq] at happlies
    rw [ComboStep.exec, comboTask, if_neg (by simp [happlies.1]), if_pos happlies.2]
    refine ⟨s, h.kept, h.clean, rfl, rfl, ?_⟩
    split
    · exact ⟨0, 0, _, rfl⟩
    · rename_i hempty
      rw [applyCombos_of_empty (not_not.mp hempty)]
      exact ⟨_, 0, _, rfl⟩
  | enable => cases happlies
  | disable => cases happlies
  | toggle => cases happlies

/-! ## Runs -/

/-- The two buffers have room for a press that is kept back. -/
def ComboStep.Roomy (cfg : ComboConfig) (s : ComboState w) (chord : Chord) : ComboStep → Prop
  | .key keycode _ true now =>
    isComboSwitch keycode = true ∨ keepsBack cfg s keycode = false ∨ RoomFor cfg s chord.held keycode now
  | _ => True

instance (s : ComboState w) (chord : Chord) : (step : ComboStep) → Decidable (step.Roomy cfg s chord)
  | .key keycode _ true now => inferInstanceAs (Decidable (isComboSwitch keycode = true ∨
      keepsBack cfg s keycode = false ∨ RoomFor cfg s chord.held keycode now))
  | .key _ _ false _ => inferInstanceAs (Decidable True)
  | .task _ | .enable | .disable | .toggle => inferInstanceAs (Decidable True)

def RoomyRun (cfg : ComboConfig) (handOn : ComboEntry → ComboState w → ComboState w) : ComboState w → Chord →
    List ComboStep → Prop
  | _, _, [] => True
  | s, chord, step :: steps =>
    step.Roomy cfg s chord ∧ RoomyRun cfg handOn (step.exec cfg handOn s) (chord.step cfg s step) steps

instance decidableRoomyRun : (s : ComboState w) → (chord : Chord) → (steps : List ComboStep) →
    Decidable (RoomyRun cfg handOn s chord steps)
  | _, _, [] => inferInstanceAs (Decidable True)
  | s, chord, step :: steps =>
    have := decidableRoomyRun (step.exec cfg handOn s) (chord.step cfg s step) steps
    inferInstanceAs (Decidable (_ ∧ _))

/-- No step activates a combo but one that applies the prepared ones, and that activates what is due, each once. -/
structure FiresDue (cfg : ComboConfig) (handOn : ComboEntry → ComboState w → ComboState w) (s : ComboState w)
    (chord : Chord) : Prop where
  nodup : chord.due.Nodup
  fires : ∀ step : ComboStep, activatedIn (step.exec cfg handOn s).log =
    activatedIn s.log ++ if step.applies cfg s = true then chord.due else []
  emptied : ∀ step : ComboStep, step.applies cfg s = true → (step.exec cfg handOn s).comboBuffer = []

theorem exec_kept {keycode now : Nat} {position : KeyPos} (hswitch : isComboSwitch keycode = false)
    (hkeeps : keepsBack cfg s keycode = true) :
    ∃ record : Record, record.event.type ≠ .tick ∧
      (ComboStep.key keycode position true now).exec cfg handOn s = consumeKey cfg keycode record now
        (processSingleCombos cfg handOn keycode now true (List.range cfg.combos.length) false
          (s.write (.keyDown keycode))).2 := by
  obtain ⟨record, htype, heq⟩ := @exec_press w cfg handOn keycode now position s hswitch
  exact ⟨record, htype, heq.trans (if_pos hkeeps)⟩

theorem consumeKey_frame (keycode : Nat) (record : Record) (now : Nat) (s : ComboState w) :
    (consumeKey cfg keycode record now s).flags = s.flags ∧
      (consumeKey cfg keycode record now s).comboBuffer = s.comboBuffer ∧
      (consumeKey cfg keycode record now s).enabled = s.enabled ∧
      activatedIn (consumeKey cfg keycode record now s).log = activatedIn s.log := by
  have hlog : activatedIn (s.log ++ [.consumed ⟨record, keycode, none⟩]) = activatedIn s.log := by
    rw [activatedIn_append]
    exact List.append_nil _
  rw [consumeKey]
  by_cases hroom : s.keyBuffer.length < cfg.keyBufferLength <;> split <;>
    simp only [ComboState.write, hroom, ↓reduceIte, true_and] <;> exact hlog

theorem comboDisable_activates (hquiet : Quiet handOn) (hkept : KeptInv cfg s) :
    activatedIn (comboDisable cfg handOn s).log = activatedIn s.log := by
  have hoff : KeptInv cfg { s with timer := 0, enabled := false, comboBuffer := [] } :=
    ⟨hkept.next, hkept.size, hkept.plain, hkept.marks, hkept.disabled, List.nodup_nil, (fun c hc => by cases hc),
      hkept.backed, (fun c hc => by cases hc), (fun c hc => by cases hc), hkept.ledger.of_eq rfl rfl⟩
  rw [comboDisable_eq hquiet hkept.next hkept.size,
    (applyCombos_activates hquiet hoff fun c hc => by cases hc).1]
  exact List.append_nil _

theorem comboToggle_activates (hquiet : Quiet handOn) (hkept : KeptInv cfg s) :
    activatedIn (comboToggle cfg handOn s).log = activatedIn s.log := by
  rw [comboToggle]
  split
  · exact comboDisable_activates hquiet hkept
  · rfl

theorem comboTask_of_not_applies {now : Nat} (h : (ComboStep.task now).applies cfg s = false) :
    comboTask cfg handOn now s = s := by
  rw [comboTask]
  split
  · rfl
  · rename_i henabled
    refine if_neg fun htimeout => ?_
    simp [ComboStep.applies, htimeout.1, htimeout.2, henabled] at h

theorem exec_activates_none (hquiet : Quiet handOn) (h : ChordInv cfg chord s) {step : ComboStep}
    (happlies : step.applies cfg s = false) : activatedIn (step.exec cfg handOn s).log = activatedIn s.log := by
  cases step with
  | key keycode position pressed now =>
    cases pressed with
    | true =>
      have hdown : KeptInv cfg (s.write (.keyDown keycode)) := KeepInv.write h.kept (uncounted_keyEntry keycode true)
      have hlog : activatedIn (s.write (.keyDown keycode)).log = activatedIn s.log :=
        activatedIn_single (uncounted_keyEntry keycode true) s.log
      rw [← hlog]
      cases hswitch : isComboSwitch keycode with
      | true =>
        rw [exec_switch hswitch]
        split
        · rfl
        · split
          · exact comboDisable_activates hquiet hdown
          · exact comboToggle_activates hquiet hdown
      | false =>
        have hkeeps : keepsBack cfg s keycode = true := by simpa [ComboStep.applies, hswitch] using happlies
        obtain ⟨record, -, heq⟩ := @exec_kept w cfg handOn s keycode now position hswitch hkeeps
        rw [heq, (consumeKey_frame keycode record now _).2.2.2, activatedIn_processSingleCombos hquiet]
    | false => cases happlies
  | task now =>
    rw [ComboStep.exec, comboTask_of_not_applies happlies]
  | enable => rfl
  | disable => exact comboDisable_activates hquiet h.kept
  | toggle => exact comboToggle_activates hquiet h.kept

theorem ChordInv.firesDue (hquiet : Quiet handOn) (h : ChordInv cfg chord s) : FiresDue cfg handOn s chord where
  nodup := h.ring ▸ h.kept.ringNodup
  fires step := by
    cases happlies : step.applies cfg s with
    | true => rw [((exec_applied hquiet h happlies).spec hquiet).2.1, h.ring, if_pos rfl]
    | false => rw [exec_activates_none hquiet h happlies, if_neg Bool.false_ne_true, List.append_nil]
  emptied step happlies := ((exec_applied hquiet h happlies).spec hquiet).2.2

theorem ChordInv.write (h : ChordInv cfg chord s) {e : ComboEntry} (he : e.Uncounted) :
    ChordInv cfg chord (s.write e) :=
  ⟨KeepInv.write h.kept he, h.ring, h.clean, h.marked, h.off⟩

theorem ChordInv.toggle (hquiet : Quiet handOn) (h : ChordInv cfg chord s) :
    ChordInv cfg (if s.enabled = true then .empty else chord) (comboToggle cfg handOn s) := by
  rw [comboToggle]
  split
  · exact comboDisable_chordInv hquiet h.kept
  · exact h.timers _ _ true fun hfalse => by cases hfalse

theorem ChordInv.press (hquiet : Quiet handOn) (h : ChordInv cfg chord s) {keycode now : Nat} {record : Record}
    (htype : record.event.type ≠ .tick) (hroom : RoomFor cfg s chord.held keycode now) :
    ChordInv cfg (chord.press cfg s keycode now) (consumeKey cfg keycode record now
      (processSingleCombos cfg handOn keycode now true (List.range cfg.combos.length) false
        (s.write (.keyDown keycode))).2) := by
  have hw := h.write (uncounted_keyEntry keycode true)
  have hstart : ChordPress cfg s chord.held keycode (List.range cfg.combos.length) chord.due
      (s.write (.keyDown keycode)) := by
    refine ⟨KeepInv.mono hw.kept fun k hk => List.mem_cons_of_mem keycode hk, rfl, rfl, h.ring, h.clean, fun _ _ _ => rfl,
      fun i _ hi => hroom.fresh i (h.ring ▸ hi), fun i hdisabled hfits key hkey => ?_⟩
    have hrange : i ∈ List.range cfg.combos.length :=
      List.mem_range.mpr (lt_of_keys_ne_nil (List.ne_nil_of_mem hkey))
    refine (h.marked i hdisabled hfits key hkey).trans ?_
    simp [hrange]
  have hsettles := hroom.settles
  rw [h.ring] at hsettles
  have hloop := @ChordPress.loop w cfg handOn s chord.held keycode now hquiet h.off (List.range cfg.combos.length)
    chord.due false (s.write (.keyDown keycode)) List.nodup_range hstart hroom.fits hsettles
  obtain ⟨-, hbuffer⟩ := @KeepInv.pressLoop w cfg handOn hquiet _ keycode now List.mem_cons_self
    (List.range cfg.combos.length) false _ hstart.keep
  generalize (processSingleCombos cfg handOn keycode now true (List.range cfg.combos.length) false
    (s.write (.keyDown keycode))).2 = s' at hloop hbuffer
  have hbuffer' : s'.keyBuffer = s.keyBuffer := hbuffer
  obtain ⟨hflags, hring, henabled, -⟩ := @consumeKey_frame w cfg keycode record now s'
  refine ⟨hloop.keep.consumeKey htype (hbuffer' ▸ hroom.room) now, hring.trans hloop.ring, fun c hc => ?_,
    fun i hdisabled hfits key hkey => ?_, fun hoff => ?_⟩
  · rw [hflags]
    exact hloop.clean c (hring ▸ hc)
  · rw [hflags] at hdisabled ⊢
    rw [hloop.marked i hdisabled hfits key hkey, Chord.press]
    by_cases hon : s.enabled = true
    · simp [hon, or_comm]
    · simp [hon]
  · rw [henabled, hloop.enabled] at hoff
    simp [Chord.press, hoff, h.off hoff]

theorem ChordInv.exec (hquiet : Quiet handOn) (h : ChordInv cfg chord s) {step : ComboStep}
    (hroomy : step.Roomy cfg s chord) : ChordInv cfg (chord.step cfg s step) (step.exec cfg handOn s) := by
  cases happlies : step.applies cfg s with
  | true =>
    have hempty : chord.step cfg s step = .empty := if_pos happlies
    rw [hempty]
    exact ((exec_applied hquiet h happlies).spec hquiet).1
  | false =>
    rw [Chord.step.eq_def, if_neg (by rw [happlies]; exact Bool.false_ne_true)]
    cases step with
    | key keycode position pressed now =>
      cases pressed with
      | true =>
        have hw := h.write (uncounted_keyEntry keycode true)
        cases hswitch : isComboSwitch keycode with
        | true =>
          rw [exec_switch hswitch]
          dsimp only
          split
          · exact hw.timers _ _ true fun hfalse => by cases hfalse
          · split
            · exact comboDisable_chordInv hquiet hw.kept
            · rename_i hon hoff
              simp only [isComboSwitch, Bool.or_eq_true, decide_eq_true_eq] at hswitch
              rw [if_pos (hswitch.resolve_left (by simp [hon, hoff]))]
              exact hw.toggle hquiet
        | false =>
          have hkeeps : keepsBack cfg s keycode = true := by simpa [ComboStep.applies, hswitch] using happlies
          obtain ⟨record, htype, heq⟩ := @exec_kept w cfg handOn s keycode now position hswitch hkeeps
          have hroom : RoomFor cfg s chord.held keycode now := by
            rcases hroomy with h | h | h
            · rw [hswitch] at h
              cases h
            · rw [hkeeps] at h
              cases h
            · exact h
          simp only [isComboSwitch, Bool.or_eq_false_iff, decide_eq_false_iff_not] at hswitch
          dsimp only
          rw [heq, if_neg hswitch.1.1, if_neg hswitch.1.2, if_neg hswitch.2]
          exact h.press hquiet htype hroom
      | false => cases happlies
    | task now =>
      rw [ComboStep.exec, comboTask_of_not_applies happlies]
      exact h
    | enable => exact h.timers _ _ true fun hfalse => by cases hfalse
    | disable => exact comboDisable_chordInv hquiet h.kept
    | toggle => exact h.toggle hquiet

theorem ChordInv.run (hquiet : Quiet handOn) {steps : List ComboStep} : ∀ {s : ComboState w} {chord : Chord},
    ChordInv cfg chord s → RoomyRun cfg handOn s chord steps →
      ChordInv cfg (runChord cfg handOn (s, chord) steps).2 (runChord cfg handOn (s, chord) steps).1 := by
  induction steps with
  | nil => intro s chord h _; exact h
  | cons step steps ih =>
    intro s chord h hroomy
    exact ih (h.exec hquiet hroomy.1) hroomy.2

end

theorem runChord_fst (steps : List ComboStep) : ∀ (s : ComboState w) (chord : Chord),
    (runChord cfg handOn (s, chord) steps).1 = runCombos cfg handOn s steps := by
  induction steps with
  | nil => intro s chord; rfl
  | cons step steps ih => intro s chord; exact ih _ _

def dueBehind (cfg : ComboConfig) (handOn : ComboEntry → ComboState w → ComboState w)
    (steps : List ComboStep) : Chord :=
  (runChord cfg handOn (.initial w, .empty) steps).2

theorem completed_combos_fire (hquiet : Quiet handOn) {steps : List ComboStep}
    (hroomy : RoomyRun cfg handOn (.initial w) .empty steps) :
    FiresDue cfg handOn (runCombos cfg handOn (.initial w) steps) (dueBehind cfg handOn steps) := by
  rw [← runChord_fst steps (.initial w) .empty]
  exact ((initial_chordInv cfg).run hquiet hroomy).firesDue hquiet

/-- Four combos of two keys each that have no key in common, and the buffers as they are by default. -/
def fourCombos : ComboConfig where
  combos := (List.range 4).map fun i => ⟨[0x04 + 2 * i, 0x05 + 2 * i], 0x1E + i⟩
  term _ := 50
  keyBufferLength := 8
  comboBufferLength := 4
  strictTimer := false

def pressKeys (count : Nat) : List ComboStep :=
  (List.range count).map fun i => .key (0x04 + i) ⟨0, i⟩ true (100 + i)

theorem completed_combos_fire_three :
    FiresDue fourCombos onlyLogged (runCombos fourCombos onlyLogged (.initial 8) (pressKeys 6))
      (dueBehind (w := 8) fourCombos onlyLogged (pressKeys 6)) ∧
    (dueBehind (w := 8) fourCombos onlyLogged (pressKeys 6)).due = [0, 1, 2] :=
  ⟨completed_combos_fire quiet_onlyLogged (by decide +kernel), by decide +kernel⟩

/-- Where all four are due, none is activated at the next release. -/
theorem four_combos_lost : ¬ ∀ (cfg : ComboConfig) (handOn : ComboEntry → ComboState 8 → ComboState 8)
    (steps : List ComboStep), Quiet handOn →
      FiresDue cfg handOn (runCombos cfg handOn (.initial 8) steps) (dueBehind cfg handOn steps) := by
  intro h
  have hfires := (h fourCombos onlyLogged (pressKeys 8) quiet_onlyLogged).fires (.key 0x0B ⟨0, 7⟩ false 110)
  have hdue : (dueBehind (w := 8) fourCombos onlyLogged (pressKeys 8)).due = [0, 1, 2, 3] := by decide +kernel
  have hnone : activatedIn ((ComboStep.key 0x0B ⟨0, 7⟩ false 110).exec fourCombos onlyLogged
      (runCombos fourCombos onlyLogged (.initial 8) (pressKeys 8))).log = [] := by
    decide +kernel
  rw [hnone, hdue] at hfires
  simp [ComboStep.applies] at hfires

end Keys
end VialQmk
