import Mathlib.Data.List.Induction
import VialQmk.Keys.ComboApply

/-!
# Keys.ComboWatch

A combo seen from outside, and the invariant that ties its flags to it.

* `watch` follows one combo through the log: activated, its output pressed, the keys that are still down, and the
  output released with the last of them.
* `BalanceInv` is the invariant between two steps, `PressInv` and `ReleaseInv` that within the loop over the combos.
* `ReadyInv.applyCombos`: applying the prepared combos leads back to it.
-/

namespace VialQmk
namespace Keys

variable {w : Nat}

inductive OutputPhase where
  | idle
  /-- Activated, the output is not pressed yet. -/
  | pending
  /-- The output is pressed; these keys of the combo have been down since. -/
  | down (keys : List Nat)
  | broken
deriving DecidableEq, Repr

structure Watch where
  held : List Nat
  phase : OutputPhase
deriving DecidableEq, Repr

def OutputPhase.keyUp (keycode : Nat) : OutputPhase → OutputPhase
  | .down keys => .down (keys.filter (· ≠ keycode))
  | phase => phase

def OutputPhase.activate (phase : OutputPhase) : OutputPhase := if phase = .idle then .pending else .broken

def OutputPhase.press (keys : List Nat) (phase : OutputPhase) : OutputPhase :=
  if phase = .pending then .down keys else .broken

/-- The output may be released when none of the keys is left. -/
def OutputPhase.release (phase : OutputPhase) : OutputPhase := if phase = .down [] then .idle else .broken

def Watch.press (keys : List Nat) (x : Watch) : Watch :=
  { x with phase := x.phase.press (keys.filter (· ∈ x.held)) }

def watchStep (cfg : ComboConfig) (index : Nat) (x : Watch) : ComboEntry → Watch
  | .keyDown keycode => { x with held := keycode :: x.held }
  | .keyUp keycode => { held := x.held.erase keycode, phase := x.phase.keyUp keycode }
  | .consumed _ => x
  | .activated i _ => if i = index then { x with phase := x.phase.activate } else x
  | .tapping q => if q.comboIndex = some index then x.press (cfg.combo index).keys else x
  | .released i _ => if i = index then { x with phase := x.phase.release } else x
  | .comboEvent i true => if i = index then x.press (cfg.combo index).keys else x
  | .comboEvent i false => if i = index then { x with phase := x.phase.release } else x

def watch (cfg : ComboConfig) (index : Nat) (log : List ComboEntry) : Watch :=
  log.foldl (watchStep cfg index) ⟨[], .idle⟩

def heldStepKeys (held : List Nat) : ComboEntry → List Nat
  | .keyDown keycode => keycode :: held
  | .keyUp keycode => held.erase keycode
  | _ => held

def heldKeys (log : List ComboEntry) : List Nat := log.foldl heldStepKeys []

section

variable {cfg : ComboConfig} {index : Nat}

variable (log : List ComboEntry)

theorem watch_append (entries : List ComboEntry) :
    watch cfg index (log ++ entries) = entries.foldl (watchStep cfg index) (watch cfg index log) := by
  rw [watch, List.foldl_append]
  rfl

theorem watch_snoc (e : ComboEntry) :
    watch cfg index (log ++ [e]) = watchStep cfg index (watch cfg index log) e := by
  rw [watch_append]
  rfl

theorem heldKeys_snoc (e : ComboEntry) : heldKeys (log ++ [e]) = heldStepKeys (heldKeys log) e := by
  simp [heldKeys]

theorem watchStep_held (x : Watch) (e : ComboEntry) : (watchStep cfg index x e).held = heldStepKeys x.held e := by
  cases e with
  | activated i absorbed =>
    rw [watchStep]
    split <;> rfl
  | tapping q =>
    rw [watchStep]
    split <;> rfl
  | released i keycode =>
    rw [watchStep]
    split <;> rfl
  | comboEvent i pressed =>
    cases pressed with
    | true =>
      rw [watchStep]
      split <;> rfl
    | false =>
      rw [watchStep]
      split <;> rfl
  | _ => rfl

theorem watch_held : (watch cfg index log).held = heldKeys log := by
  induction log using List.reverseRecOn with
  | nil => rfl
  | append_singleton log e ih => rw [watch_snoc, heldKeys_snoc, watchStep_held, ih]

def ComboEntry.Unconcerned (index : Nat) : ComboEntry → Prop
  | .keyDown _ | .keyUp _ => False
  | .consumed _ => True
  | .activated i _ | .released i _ | .comboEvent i _ => i ≠ index
  | .tapping q => q.comboIndex ≠ some index

theorem watchStep_of_unconcerned {e : ComboEntry} (h : e.Unconcerned index) (x : Watch) :
    watchStep cfg index x e = x := by
  cases e with
  | keyDown _ => exact h.elim
  | keyUp _ => exact h.elim
  | consumed q => rfl
  | activated i absorbed => exact if_neg h
  | tapping q => exact if_neg h
  | released i keycode => exact if_neg h
  | comboEvent i pressed => cases pressed <;> exact if_neg h

theorem watch_callsIn : ∀ {buffer : List QueuedRecord}, (combosIn buffer).Nodup →
    (∀ q ∈ buffer, q.comboIndex.isSome = true → q.record.event.type ≠ .tick) → ∀ x : Watch,
      (callsIn buffer).foldl (watchStep cfg index) x =
        if index ∈ combosIn buffer then x.press (cfg.combo index).keys else x := by
  intro buffer
  induction buffer with
  | nil => intro _ _ x; rfl
  | cons q buffer ih =>
    intro hnodup htype x
    have htype' : ∀ q ∈ buffer, q.comboIndex.isSome = true → q.record.event.type ≠ .tick :=
      fun q hq => htype q (List.mem_cons_of_mem _ hq)
    rw [callsIn_cons, List.foldl_append]
    cases hq : q.comboIndex with
    | none =>
      have hskip : combosIn (q :: buffer) = combosIn buffer := by simp [combosIn, hq]
      have hcall : q.call = .tapping q := by simp [QueuedRecord.call, hq]
      rw [hskip] at hnodup ⊢
      have hfirst : (if q.record.event.type = .tick then [] else [q.call]).foldl (watchStep cfg index) x = x := by
        split
        · rfl
        · exact watchStep_of_unconcerned (by simp [hcall, ComboEntry.Unconcerned, hq]) x
      rw [hfirst]
      exact ih hnodup htype' x
    | some c =>
      have hcons : combosIn (q :: buffer) = c :: combosIn buffer := by simp [combosIn, hq]
      rw [hcons] at hnodup ⊢
      obtain ⟨hnot, hnodup⟩ := List.nodup_cons.mp hnodup
      rw [if_neg (htype q List.mem_cons_self (by rw [hq]; rfl))]
      have hcall : watchStep cfg index x q.call = if c = index then x.press (cfg.combo index).keys else x := by
        rw [QueuedRecord.call, hq]
        dsimp only
        split <;> simp [watchStep, hq]
      rw [List.foldl_cons, List.foldl_nil, hcall, ih hnodup htype']
      by_cases hc : c = index
      · subst hc
        simp [hnot]
      · simp [hc, Ne.symm hc]

theorem watch_activations : ∀ {acts : List (Nat × List QueuedRecord)}, (acts.map Prod.fst).Nodup → ∀ x : Watch,
    (acts.map fun a => ComboEntry.activated a.1 a.2).foldl (watchStep cfg index) x =
      if index ∈ acts.map Prod.fst then { x with phase := x.phase.activate } else x := by
  intro acts
  induction acts with
  | nil => intro _ x; rfl
  | cons a acts ih =>
    intro hnodup x
    rw [List.map_cons] at hnodup ⊢
    obtain ⟨hnot, hnodup⟩ := List.nodup_cons.mp hnodup
    rw [List.map_cons, List.foldl_cons, ih hnodup]
    by_cases ha : a.1 = index
    · subst ha
      simp [watchStep, hnot]
    · have hmem : index ∈ acts.map Prod.fst ↔ index ∈ a.1 :: acts.map Prod.fst := by
        rw [List.mem_cons]
        exact (or_iff_right (Ne.symm ha)).symm
      rw [watchStep, if_neg ha]
      exact if_congr hmem rfl rfl

end

structure ComboInv (cfg : ComboConfig) (s : ComboState w) : Prop where
  next : s.keyBufferNext = 0
  size : s.keyBuffer.length ≤ cfg.keyBufferLength
  heldNodup : (heldKeys s.log).Nodup
  plain : ∀ q ∈ s.keyBuffer, q.Plain
  marks : ∀ i, (cfg.combo i).Marks (s.flags i).state
  disabled : ∀ i, (s.flags i).active = true → (s.flags i).disabled = true
  ringNodup : s.comboBuffer.Nodup
  ringNonempty : ∀ c ∈ s.comboBuffer, (cfg.combo c).keys ≠ []
  ringOff : s.enabled = false → s.comboBuffer = []

theorem ComboInv.inactive {cfg : ComboConfig} {s : ComboState w} (h : ComboInv cfg s) {index : Nat}
    (hdisabled : (s.flags index).disabled = false) : (s.flags index).active = false := by
  rw [← Bool.not_eq_true]
  intro hactive
  rw [h.disabled index hactive] at hdisabled
  cases hdisabled

/-- Of two prepared combos that overlap, one is disabled, if all keys of the first are there. -/
def Apart (cfg : ComboConfig) (s : ComboState w) (keycodes : List Nat) (among : Nat → Prop) : Prop :=
  ∀ c ∈ s.comboBuffer, among c → ∀ c' ∈ s.comboBuffer, c ≠ c' → Shares cfg c c' →
    Complete w cfg c keycodes → (s.flags c).disabled = true ∨ (s.flags c').disabled = true

def ReadyMarked (cfg : ComboConfig) (s : ComboState w) (index : Nat) (key : Nat) : Prop :=
  (s.flags index).active = false → (s.flags index).disabled = false → (cfg.combo index).Fits w →
    key ∈ (cfg.combo index).keys → (cfg.combo index).Marked (s.flags index).state key

/-- The log of a combo fits its flags. The keys that are `gone` are up, but their bits are still set. -/
structure Follows (cfg : ComboConfig) (s : ComboState w) (index : Nat) (gone : Nat → Prop) : Prop where
  idle : (s.flags index).active = false → (watch cfg index s.log).phase = .idle
  down : (s.flags index).active = true → ∃ keys, (watch cfg index s.log).phase = .down keys ∧
    (∀ key, key ∈ keys ↔ (cfg.combo index).Marked (s.flags index).state key ∧ ¬ gone key) ∧
    ∃ key, (cfg.combo index).Marked (s.flags index).state key

structure BalanceInv (cfg : ComboConfig) (s : ComboState w) : Prop where
  base : ComboInv cfg s
  bufferHeld : ∀ key ∈ keycodesIn s.keyBuffer, key ∈ heldKeys s.log
  marked : ∀ i key, (cfg.combo i).Marked (s.flags i).state key → key ∈ heldKeys s.log
  covered : ∀ i, ∀ key ∈ keycodesIn s.keyBuffer, ReadyMarked cfg s i key
  apart : Apart cfg s (keycodesIn s.keyBuffer) fun _ => True
  follows : ∀ i, Follows cfg s i fun _ => False

/-- Within the loop over the combos for a press: those in `rem` are still to come. -/
structure PressInv (cfg : ComboConfig) (key : Nat) (rem : List Nat) (any : Bool) (s : ComboState w) : Prop where
  base : ComboInv cfg s
  keyHeld : key ∈ heldKeys s.log
  bufferHeld : ∀ k ∈ keycodesIn s.keyBuffer, k ∈ heldKeys s.log
  marked : ∀ i k, (cfg.combo i).Marked (s.flags i).state k → k ∈ heldKeys s.log
  unmarked : ∀ i ∈ rem, ¬ (cfg.combo i).Marked (s.flags i).state key
  covered : ∀ i, ∀ k ∈ keycodesIn s.keyBuffer, ReadyMarked cfg s i k
  coveredKey : s.enabled = true → ∀ i, i ∉ rem → ReadyMarked cfg s i key
  apart : Apart cfg s (key :: keycodesIn s.keyBuffer) fun c => c ∉ rem ∨ key ∉ (cfg.combo c).keys
  follows : ∀ i, Follows cfg s i fun _ => False
  answered : any = true → s.enabled = true

structure ReleaseInv (cfg : ComboConfig) (key : Nat) (rem : List Nat) (s : ComboState w) : Prop where
  base : ComboInv cfg s
  keyUp : key ∉ heldKeys s.log
  bufferHeld : ∀ k ∈ keycodesIn s.keyBuffer, k ∈ heldKeys s.log ∨ k = key
  marked : ∀ i k, (cfg.combo i).Marked (s.flags i).state k → k ∈ heldKeys s.log ∨ i ∈ rem ∧ k = key
  covered : ∀ i, ∀ k ∈ keycodesIn s.keyBuffer, k ≠ key → ReadyMarked cfg s i k
  apart : Apart cfg s (keycodesIn s.keyBuffer) fun _ => True
  follows : ∀ i, Follows cfg s i fun k => i ∈ rem ∧ k = key
  sole : ∀ c ∈ s.comboBuffer, (s.flags c).disabled = false → (cfg.combo c).keys ≠ [key]

/-- The prepared combos can be applied and the buffer emptied. -/
structure ReadyInv (cfg : ComboConfig) (s : ComboState w) : Prop where
  base : ComboInv cfg s
  marked : ∀ i key, (cfg.combo i).Marked (s.flags i).state key → key ∈ heldKeys s.log
  covered : ∀ i, ∀ key ∈ keycodesIn s.keyBuffer, key ∈ heldKeys s.log → ReadyMarked cfg s i key
  apart : Apart cfg s (keycodesIn s.keyBuffer) fun _ => True
  follows : ∀ i, Follows cfg s i fun _ => False
  lives : ∀ c ∈ s.comboBuffer, (s.flags c).disabled = false → Complete w cfg c (keycodesIn s.keyBuffer) →
    ∃ key ∈ (cfg.combo c).keys, key ∈ heldKeys s.log

section

variable {cfg : ComboConfig}

theorem initial_balanceInv (cfg : ComboConfig) : BalanceInv cfg (.initial w) where
  base := {
    next := rfl
    size := Nat.zero_le _
    heldNodup := List.nodup_nil
    plain := by intro q hq; cases hq
    marks := fun _ => Combo.marks_zero
    disabled := by intro i h; cases h
    ringNodup := List.nodup_nil
    ringNonempty := by intro c hc; cases hc
    ringOff := fun _ => rfl }
  bufferHeld := by intro key h; cases h
  marked i key h := absurd h Combo.not_marked_zero
  covered := by intro i key h; cases h
  apart := by intro c hc; cases hc
  follows i := ⟨fun _ => rfl, fun h => by cases h⟩

variable {s s₁ : ComboState w}

theorem ReadyInv.appliable (h : ReadyInv cfg s) : Appliable cfg s where
  nodup := h.base.ringNodup
  nonempty := h.base.ringNonempty
  plain := h.base.plain
  apart c hc c' hc' hne hshares happlies := by
    obtain ⟨hdisabled, hcomplete⟩ := (applies_complete (h.base.ringNonempty c hc)).mp happlies
    refine (h.apart c hc trivial c' hc' hne hshares hcomplete).resolve_left fun htrue => ?_
    rw [hdisabled] at htrue
    cases htrue

theorem heldKeys_append_of_foldl {log entries : List ComboEntry}
    (h : ∀ e ∈ entries, ∀ held, heldStepKeys held e = held) : heldKeys (log ++ entries) = heldKeys log := by
  rw [heldKeys, List.foldl_append]
  change entries.foldl heldStepKeys (heldKeys log) = heldKeys log
  generalize heldKeys log = held
  induction entries with
  | nil => rfl
  | cons e entries ih =>
    rw [List.foldl_cons, h e List.mem_cons_self]
    exact ih fun e he => h e (List.mem_cons_of_mem _ he)

theorem heldStepKeys_activated {acts : List (Nat × List QueuedRecord)} {e : ComboEntry}
    (h : e ∈ acts.map fun a => ComboEntry.activated a.1 a.2) (held : List Nat) : heldStepKeys held e = held := by
  obtain ⟨a, -, rfl⟩ := List.mem_map.mp h
  rfl

theorem heldStepKeys_callsIn {buffer : List QueuedRecord} {e : ComboEntry} (h : e ∈ callsIn buffer)
    (held : List Nat) : heldStepKeys held e = held := by
  obtain ⟨q, -, rfl⟩ := List.mem_map.mp h
  rw [QueuedRecord.call]
  split
  · split <;> rfl
  · rfl

theorem Applying.watch (hspec : Applying cfg s s.comboBuffer [] s₁) (hbase : ComboInv cfg s) (i : Nat) :
    (watch cfg i (s₁.log ++ callsIn s₁.keyBuffer)).phase =
      if i ∈ s.comboBuffer ∧ applies cfg s i = true then
        ((watch cfg i s.log).phase.activate).press ((cfg.combo i).keys.filter (· ∈ heldKeys s.log))
      else (watch cfg i s.log).phase := by
  obtain ⟨acts, hacts⟩ := hspec.activations
  have hfilter : (s.comboBuffer.filter (applies cfg s)).Nodup := hbase.ringNodup.filter _
  have hindices : i ∈ acts.map Prod.fst ↔ i ∈ s.comboBuffer ∧ applies cfg s i = true := by
    rw [hacts.indices, List.mem_filter]
  have houtputs : i ∈ combosIn s₁.keyBuffer ↔ i ∈ s.comboBuffer ∧ applies cfg s i = true := by
    rw [hspec.outputs.mem_iff, List.mem_filter]
  have htype : ∀ q ∈ s₁.keyBuffer, q.comboIndex.isSome = true → q.record.event.type ≠ .tick := by
    intro q hq hsome htick
    cases hspec.buffer q hq with
    | kept h =>
      rw [(hbase.plain q h).1] at hsome
      cases hsome
    | tick _ _ _ _ hnone =>
      rw [hnone] at hsome
      cases hsome
    | output _ _ _ _ _ hcombo =>
      rw [htick] at hcombo
      cases hcombo
  rw [watch_append, watch_callsIn (hspec.outputs.nodup_iff.mpr hfilter) htype, hacts.log, watch_append,
    watch_activations (hacts.indices ▸ hfilter)]
  by_cases happlied : i ∈ s.comboBuffer ∧ applies cfg s i = true
  · rw [if_pos (houtputs.mpr happlied), if_pos (hindices.mpr happlied), if_pos happlied]
    rw [Watch.press, watch_held]
  · rw [if_neg (mt houtputs.mp happlied), if_neg (mt hindices.mp happlied), if_neg happlied]

theorem Applying.heldKeys (hspec : Applying cfg s s.comboBuffer [] s₁) :
    heldKeys (s₁.log ++ callsIn s₁.keyBuffer) = heldKeys s.log := by
  obtain ⟨acts, hacts⟩ := hspec.activations
  rw [heldKeys_append_of_foldl fun e he => heldStepKeys_callsIn he, hacts.log,
    heldKeys_append_of_foldl fun e he => heldStepKeys_activated he]

theorem ReadyInv.cleared_state (h : ReadyInv cfg s) (hspec : Applying cfg s s.comboBuffer [] s₁) (i : Nat) :
    (clearedFlags cfg i (s₁.flags i)).state = 0 ∨ (clearedFlags cfg i (s₁.flags i)).state = (s.flags i).state := by
  rcases hspec.clearedFlags h.appliable h.base.disabled i with ⟨-, -, hflags⟩ | ⟨-, -, hflags⟩ | ⟨-, -, -, hstate⟩
  · exact .inr (by rw [hflags])
  · exact .inr (by rw [hflags])
  · exact hstate.imp_right And.right

theorem ReadyInv.activated_follows {s' : ComboState w} (h : ReadyInv cfg s) {i : Nat} (hmem : i ∈ s.comboBuffer)
    (happlies : applies cfg s i = true) (hflags : s'.flags i = ⟨true, true, (s.flags i).state⟩)
    (hphase : (watch cfg i s'.log).phase =
      ((watch cfg i s.log).phase.activate).press ((cfg.combo i).keys.filter (· ∈ heldKeys s.log))) :
    Follows cfg s' i fun _ => False := by
  obtain ⟨hdisabled, hcomplete⟩ := (applies_complete (h.base.ringNonempty i hmem)).mp happlies
  have hinactive := h.base.inactive hdisabled
  rw [(h.follows i).idle hinactive] at hphase
  have hmarked : ∀ key, key ∈ (cfg.combo i).keys.filter (· ∈ heldKeys s.log) ↔
      (cfg.combo i).Marked (s.flags i).state key := by
    intro key
    rw [List.mem_filter, decide_eq_true_eq]
    constructor
    · rintro ⟨hkey, hheldKey⟩
      exact h.covered i key (hcomplete.keys key hkey) hheldKey hinactive hdisabled hcomplete.fits hkey
    · exact fun hmarked => ⟨hmarked.mem, h.marked i key hmarked⟩
  constructor
  · intro hactive
    rw [hflags] at hactive
    cases hactive
  · intro _
    refine ⟨(cfg.combo i).keys.filter (· ∈ heldKeys s.log), hphase, fun key => ?_, ?_⟩
    · simp only [hflags, not_false_eq_true, and_true]
      exact hmarked key
    · obtain ⟨key, hkey, hheldKey⟩ := h.lives i hmem hdisabled hcomplete
      refine ⟨key, ?_⟩
      rw [hflags]
      exact (hmarked key).mp (List.mem_filter.mpr ⟨hkey, decide_eq_true hheldKey⟩)

theorem ReadyInv.cleared_follows {s' : ComboState w} (h : ReadyInv cfg s)
    (hspec : Applying cfg s s.comboBuffer [] s₁) (i : Nat) (hflags : s'.flags i = clearedFlags cfg i (s₁.flags i))
    (hlog : s'.log = s₁.log ++ callsIn s₁.keyBuffer) : Follows cfg s' i fun _ => False := by
  have hphase := hspec.watch h.base i
  rw [← hlog] at hphase
  rcases hspec.clearedFlags h.appliable h.base.disabled i with
    ⟨hmem, happlies, hcleared⟩ | ⟨hnot, hold, hcleared⟩ | ⟨hnot, hold, hfalse, -⟩
  · rw [if_pos ⟨hmem, happlies⟩] at hphase
    exact h.activated_follows hmem happlies (hflags.trans hcleared) hphase
  · rw [if_neg hnot] at hphase
    obtain ⟨keys, hdown, hkeys, hsome⟩ := (h.follows i).down hold
    rw [hcleared] at hflags
    constructor
    · intro hinactive
      rw [hflags, hold] at hinactive
      cases hinactive
    · intro _
      rw [hflags]
      exact ⟨keys, hphase.trans hdown, hkeys, hsome⟩
  · rw [if_neg hnot] at hphase
    constructor
    · intro _
      exact hphase.trans ((h.follows i).idle hold)
    · intro hactive
      rw [hflags, hfalse] at hactive
      cases hactive

theorem ReadyInv.applyCombos {handOn : ComboEntry → ComboState w → ComboState w} (hquiet : Quiet handOn)
    (h : ReadyInv cfg s) : BalanceInv cfg (applyCombos cfg handOn s) := by
  have hspec := applyLoop_spec h.appliable
  generalize hs₁ : s.comboBuffer.foldl (fun s index => applyCombo cfg index s) s = s₁ at hspec
  rw [applyCombos_eq hquiet hs₁ hspec h.base.next h.base.size]
  obtain ⟨kept, hring, hkept, -⟩ := hspec.ring
  rw [List.append_nil] at hring
  have hheld := hspec.heldKeys
  have hsub : s₁.comboBuffer.Sublist s.comboBuffer := hring ▸ hkept
  refine ⟨⟨h.base.next, Nat.zero_le _, ?_, ?_, fun i => ?_, fun i hactive => ?_, hsub.nodup h.base.ringNodup,
    fun c hc => h.base.ringNonempty c (hsub.subset hc), fun hoff => ?_⟩, ?_, fun i key hmarked => ?_, ?_, ?_,
    fun i => h.cleared_follows hspec i rfl rfl⟩
  · rw [hheld]
    exact h.base.heldNodup
  · intro q hq
    cases hq
  · rcases h.cleared_state hspec i with hzero | hstate
    · simp only [hzero]
      exact Combo.marks_zero
    · simp only [hstate]
      exact h.base.marks i
  · rcases hspec.clearedFlags h.appliable h.base.disabled i with ⟨-, -, hflags⟩ | ⟨-, hold, hflags⟩ | ⟨-, -, hfalse, -⟩
    · simp only [hflags]
    · simp only [hflags]
      exact h.base.disabled i hold
    · rw [hfalse] at hactive
      cases hactive
  · have hempty := h.base.ringOff hoff
    rw [hempty] at hsub
    exact List.sublist_nil.mp hsub
  · intro key hkey
    cases hkey
  · rw [hheld]
    rcases h.cleared_state hspec i with hzero | hstate
    · simp only [hzero] at hmarked
      exact absurd hmarked Combo.not_marked_zero
    · simp only [hstate] at hmarked
      exact h.marked i key hmarked
  · intro i key hkey
    cases hkey
  · intro c _ _ c' _ _ _ hcomplete
    exact absurd hcomplete (not_complete_nil c)

end

end Keys
end VialQmk
