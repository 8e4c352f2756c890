import VialQmk.Keys.TapDance

/-!
# Keys.TapDanceFrame

What the functions of tap dance leave alone.

* `Aside`: a change that keeps a dance, what waits, and what was processed of the sources watched.
* The rules of the section `Rules`: a relation that allows such changes, and that `action_exec` keeps, is kept by
  every callback of other dances and by every macro.
-/

namespace VialQmk
namespace Keys
namespace TapDance

open Eeprom Lib

theorem sub_qkTapDance {keycode : UInt16} (h : IsTapDance keycode) :
    (keycode - qkTapDance).toNat = qkTapDanceGetIndex keycode := by
  have hlow : 0x5700 ≤ keycode.toNat := UInt16.le_iff_toNat_le.mp h.1
  have hhigh : keycode.toNat ≤ 0x57FF := UInt16.le_iff_toNat_le.mp h.2
  have hand : (keycode &&& 0xFF).toNat = keycode.toNat % 256 := Nat.and_two_pow_sub_one_eq_mod keycode.toNat 8
  rw [qkTapDanceGetIndex, hand, UInt16.toNat_sub_of_le _ _ h.1]
  show keycode.toNat - 0x5700 = _
  omega

theorem eq_of_qkTapDanceGetIndex {k k' : UInt16} (h : IsTapDance k) (h' : IsTapDance k')
    (hindex : qkTapDanceGetIndex k = qkTapDanceGetIndex k') : k = k' := by
  rw [← sub_qkTapDance h, ← sub_qkTapDance h'] at hindex
  rw [← UInt16.sub_add_cancel k qkTapDance, UInt16.toNat_inj.mp hindex, UInt16.sub_add_cancel]

/-- The keycode that stays down behind `on_dance_finished`, 0 if there is none. -/
def heldKeycode (td : VialTapDanceEntry) : Outcome → UInt16
  | .singleTap | .doubleSingleTap => td.onTap
  | .singleHold => if td.onHold ≠ 0 then td.onHold else td.onTap
  | .doubleTap => if td.onDoubleTap ≠ 0 then td.onDoubleTap else td.onTap
  | .doubleHold => if td.onTapHold ≠ 0 then td.onTapHold else if td.onHold ≠ 0 then td.onHold else td.onTap
  | .moreTaps | .none => 0

section Callbacks

variable {env : DanceEnv} (exec : Exec) {i : Nat} {td : VialTapDanceEntry} (htd : env.entries[i]? = some td)
  (s : Board)

def Board.outcome (s : Board) (i : Nat) (td : VialTapDanceEntry) : Board :=
  { s with tdEntry := td }.setDanceState i (danceStep (s.action i))

def Board.noOutcome (s : Board) (i : Nat) (td : VialTapDanceEntry) : Board :=
  ({ s with tdEntry := td }.setAction i ((s.action i).setCount 0)).setDanceState i .none

include htd

theorem onDanceFinished_cases :
    (heldKeycode td (danceStep (s.action i)) = 0 ∧ onDanceFinished env exec i s = some (s.outcome i td)) ∨
    (heldKeycode td (danceStep (s.action i)) ≠ 0 ∧ onDanceFinished env exec i s =
      vialKeycodeDown exec (.dance i true) (heldKeycode td (danceStep (s.action i))) (s.outcome i td)) ∨
    (heldKeycode td (danceStep (s.action i)) ≠ 0 ∧ ∃ next : VialTapDanceEntry → UInt16,
      next td = heldKeycode td (danceStep (s.action i)) ∧
      onDanceFinished env exec i s = tapThenDown exec i next (s.outcome i td)) := by
  simp only [onDanceFinished, htd, Board.outcome]
  generalize danceStep (s.action i) = st
  cases st with
  | none | moreTaps => exact .inl ⟨rfl, rfl⟩
  | singleTap | singleHold =>
    dsimp only [heldKeycode]
    split_ifs <;> simp_all
  | doubleTap | doubleSingleTap | doubleHold =>
    dsimp only [heldKeycode]
    -- behind a tap, the keycode is looked up again
    split_ifs <;> first
      | exact .inr (.inr ⟨‹_›, _, by simp [*], rfl⟩)
      | simp_all

theorem onDanceReset_eq :
    onDanceReset env exec i s = if heldKeycode td (s.danceState i) = 0 then some (s.noOutcome i td)
      else vialKeycodeUp exec (.dance i true) (heldKeycode td (s.danceState i)) (s.noOutcome i td) := by
  simp only [onDanceReset, htd, Board.noOutcome]
  cases s.danceState i <;> dsimp only [heldKeycode] <;> split_ifs <;> simp_all

end Callbacks

/-- The record of the event is from a watched source, or the event is of a watched dance. -/
def Event.Of (mine : Source → Prop) (watched : Nat → Prop) : Event → Prop
  | .issued r | .processed r _ => mine r.source
  | .finished i _ | .reset i _ => watched i
  | .weakModsCleared | .slip _ => False

structure Aside (mine : Source → Prop) (watched : Nat → Prop) (s s' : Board) : Prop where
  action : ∀ i, watched i → s'.action i = s.action i
  mods : ∀ i, watched i → s'.mods i = s.mods i
  danceState : ∀ i, watched i → s'.danceState i = s.danceState i
  running : ∀ i, watched i → s'.running i = s.running i
  waiting : s'.waiting = s.waiting
  active : s'.activeTd = s.activeTd ∨ s'.activeTd = 0
  log : ∃ new, s'.log = s.log ++ new ∧ ∀ e ∈ new, ¬ e.Of mine watched

section Rules

variable {mine : Source → Prop} {watched : Nat → Prop} {s s' : Board}

variable {keycode : UInt16} {j : Nat} {f : Board → Option Board}

theorem ne_watched {i : Nat} (hj : ¬ watched j) (hi : watched i) : i ≠ j := by
  rintro rfl
  exact hj hi

theorem Aside.of_eq (haction : ∀ i, watched i → s'.action i = s.action i)
    (hmods : ∀ i, watched i → s'.mods i = s.mods i) (hdance : ∀ i, watched i → s'.danceState i = s.danceState i)
    (hrunning : ∀ i, watched i → s'.running i = s.running i) (hwaiting : s'.waiting = s.waiting)
    (hactive : s'.activeTd = s.activeTd) (hlog : s'.log = s.log) : Aside mine watched s s' :=
  ⟨haction, hmods, hdance, hrunning, hwaiting, .inl hactive, [], by rw [hlog, List.append_nil],
    fun _ he => absurd he List.not_mem_nil⟩

theorem Aside.of_same (haction : s'.action = s.action) (hmods : s'.mods = s.mods)
    (hdance : s'.danceState = s.danceState) (hrunning : s'.running = s.running) (hwaiting : s'.waiting = s.waiting)
    (hactive : s'.activeTd = s.activeTd) (hlog : s'.log = s.log) : Aside mine watched s s' :=
  .of_eq (fun _ _ => congrFun haction _) (fun _ _ => congrFun hmods _) (fun _ _ => congrFun hdance _)
    (fun _ _ => congrFun hrunning _) hwaiting hactive hlog

theorem Aside.write (s : Board) {e : Event} (he : ¬ e.Of mine watched) : Aside mine watched s (s.write e) :=
  ⟨fun _ _ => rfl, fun _ _ => rfl, fun _ _ => rfl, fun _ _ => rfl, rfl, .inl rfl, [e], rfl,
    fun _ hx => by rwa [List.mem_singleton.mp hx]⟩

theorem Aside.slipIf (s : Board) (p : Prop) [Decidable p] (x : Slip) : Aside mine watched s (s.slipIf p x) := by
  rw [Board.slipIf]
  split
  · exact .write s id
  · exact .of_same rfl rfl rfl rfl rfl rfl rfl

theorem Aside.inactive (s : Board) : Aside mine watched s { s with activeTd := 0 } :=
  ⟨fun _ _ => rfl, fun _ _ => rfl, fun _ _ => rfl, fun _ _ => rfl, rfl, .inr rfl, [], (List.append_nil _).symm,
    fun _ he => absurd he List.not_mem_nil⟩

theorem Aside.stamp (s : Board) : Aside mine watched s s.stamp := .of_same rfl rfl rfl rfl rfl rfl rfl

theorem Aside.setAction (s : Board) (hj : ¬ watched j) (t : DanceState) : Aside mine watched s (s.setAction j t) :=
  .of_eq (fun _ hi => s.setAction_of_ne t (ne_watched hj hi)) (fun _ _ => rfl) (fun _ _ => rfl) (fun _ _ => rfl)
    rfl rfl rfl

theorem Aside.setMods (s : Board) (hj : ¬ watched j) (m : DanceMods) : Aside mine watched s (s.setMods j m) :=
  .of_eq (fun _ _ => rfl) (fun _ hi => s.setMods_of_ne m (ne_watched hj hi)) (fun _ _ => rfl) (fun _ _ => rfl)
    rfl rfl rfl

theorem Aside.setRunning (s : Board) (hj : ¬ watched j) (b : Bool) : Aside mine watched s (s.setRunning j b) :=
  .of_eq (fun _ _ => rfl) (fun _ _ => rfl) (fun _ _ => rfl) (fun _ hi => s.setRunning_of_ne b (ne_watched hj hi))
    rfl rfl rfl

structure Allows (mine : Source → Prop) (watched : Nat → Prop) (R : Board → Board → Prop) : Prop where
  refl : ∀ s, R s s
  trans : ∀ {s₁ s₂ s₃}, R s₁ s₂ → R s₂ s₃ → R s₁ s₃
  aside : ∀ {s s'}, Aside mine watched s s' → R s s'

structure Handles (R : Board → Board → Prop) (env : DanceEnv) (exec : Exec) (j : Nat) : Prop where
  change : ∀ (s : Board) (f : DanceState → DanceState), (∀ t, (f t).finished = t.finished) →
    R s (s.setAction j (f (s.action j)))
  tap : Keeps R (processTapDanceActionOnEachTap env exec j)
  finish : Keeps R (processTapDanceActionOnDanceFinished env exec j)
  reset : Keeps R (processTapDanceActionOnReset env exec j)

variable {R : Board → Board → Prop} (hR : Allows mine watched R) {exec : Exec} {env : DanceEnv}

theorem of_some {t : Board} (h : some t = some s') (ht : R s t) : R s s' := by
  rwa [← Option.some.inj h]

include hR

theorem Allows.after {t : Board} (ha : Aside mine watched s t) (hf : Keeps R f) (h : f t = some s') : R s s' :=
  hR.trans (hR.aside ha) (hf h)

theorem Allows.bind {g : Board → Option Board} (hf : Keeps R f) (hg : Keeps R g) : Keeps R fun s => (f s).bind g :=
  fun _ _ h => Keeps.bind hR.trans (fun _ ht => hf ht) (fun _ _ => hg) h

variable (hexec : ∀ r : KeyRecord, ¬ mine r.source → Keeps R (exec r))

include hexec

theorem vialKeycode_keeps {source : Source} (hsource : ¬ mine source) (keycode : UInt16) (pressed : Bool) :
    Keeps R (vialKeycode exec source keycode pressed) := by
  intro s s' h
  rw [vialKeycode] at h
  have hover : Aside mine watched s { s with magicKeycodeOverride := keycode } := .of_same rfl rfl rfl rfl rfl rfl rfl
  refine hR.trans (hR.aside hover) (hR.trans (hR.aside (.write (e := .issued ⟨source, keycode, pressed⟩) _ hsource)) ?_)
  split at h
  · exact of_some h (hR.aside (.write _ hsource))
  · exact hexec ⟨source, keycode, pressed⟩ hsource h

theorem vialKeycodeTap_keeps {source : Source} (hsource : ¬ mine source) (keycode : UInt16) :
    Keeps R (vialKeycodeTap exec source keycode) :=
  hR.bind (vialKeycode_keeps hR hexec hsource keycode true) (vialKeycode_keeps hR hexec hsource keycode false)

theorem sendMacro_keeps (hplay : ¬ mine .macroPlay) (calls : List (UInt16 × Bool)) : Keeps R (sendMacro exec calls) :=
  Keeps.foldlM hR.refl hR.trans (fun _ => vialKeycode_keeps hR hexec hplay _ _) calls

theorem onDance_keeps (hsource : ¬ mine (.dance j false)) : Keeps R (onDance env exec j) := by
  intro s s' h
  rw [onDance] at h
  have htap := vialKeycodeTap_keeps hR hexec hsource
  split at h
  · exact of_some h (hR.refl s)
  case _ td htd =>
    have hentry : Aside mine watched s { s with tdEntry := td } := .of_same rfl rfl rfl rfl rfl rfl rfl
    dsimp only at h
    split_ifs at h
    · exact hR.after hentry (hR.bind (hR.bind (htap _) (htap _)) (htap _)) h
    · exact hR.after hentry (htap _) h
    · exact of_some h (hR.aside hentry)
    · exact of_some h (hR.aside hentry)

theorem processTapDanceActionOnEachTap_keeps (hj : ¬ watched j) (hsource : ¬ mine (.dance j false)) :
    Keeps R (processTapDanceActionOnEachTap env exec j) := by
  intro s s' h
  exact hR.trans (hR.aside (@Aside.slipIf mine watched s _ _ .replaced)) (hR.trans (hR.aside (.setAction _ hj _))
    (hR.after (.setMods _ hj _) (onDance_keeps hR hexec hsource) h))

theorem tapThenDown_keeps (htapped : ¬ mine (.dance j false)) (hheld : ¬ mine (.dance j true))
    (next : VialTapDanceEntry → UInt16) : Keeps R (tapThenDown exec j next) := by
  intro s s' h
  obtain ⟨t, ht, hts⟩ := Option.bind_eq_some_iff.mp h
  refine hR.trans (vialKeycodeTap_keeps hR hexec htapped _ ht) ?_
  exact hR.after (.slipIf t _ _) (vialKeycode_keeps hR hexec hheld _ _) hts

theorem onDanceFinished_keeps (hj : ¬ watched j) (hsource : ∀ held, ¬ mine (.dance j held)) :
    Keeps R (onDanceFinished env exec j) := by
  intro s s' h
  cases htd : env.entries[j]? with
  | none =>
    rw [onDanceFinished, htd] at h
    exact of_some h (hR.refl s)
  | some td =>
    have houtcome : Aside mine watched s (s.outcome j td) :=
      .of_eq (fun _ _ => rfl) (fun _ _ => rfl) (fun _ hi => Board.setDanceState_of_ne _ _ (ne_watched hj hi))
        (fun _ _ => rfl) rfl rfl rfl
    obtain ⟨-, heq⟩ | ⟨-, heq⟩ | ⟨-, next, -, heq⟩ := onDanceFinished_cases exec htd s <;> rw [heq] at h
    · exact of_some h (hR.aside houtcome)
    · exact hR.after houtcome (vialKeycode_keeps hR hexec (hsource true) _ true) h
    · exact hR.after houtcome (tapThenDown_keeps hR hexec (hsource false) (hsource true) next) h

theorem onDanceReset_keeps (hj : ¬ watched j) (hsource : ¬ mine (.dance j true)) :
    Keeps R (onDanceReset env exec j) := by
  intro s s' h
  cases htd : env.entries[j]? with
  | none =>
    rw [onDanceReset, htd] at h
    exact of_some h (hR.refl s)
  | some td =>
    have houtcome : Aside mine watched s (s.noOutcome j td) :=
      .of_eq (fun _ hi => Board.setAction_of_ne _ _ (ne_watched hj hi)) (fun _ _ => rfl)
        (fun _ hi => Board.setDanceState_of_ne _ _ (ne_watched hj hi)) (fun _ _ => rfl) rfl rfl rfl
    rw [onDanceReset_eq exec htd] at h
    split at h
    · exact of_some h (hR.aside houtcome)
    · exact hR.after houtcome (vialKeycode_keeps hR hexec hsource _ false) h

omit hexec in
theorem callback_keeps (hj : ¬ watched j) (hf : Keeps R f) : Keeps R (callback j f) := by
  intro s s' h
  obtain ⟨t, ht, rfl⟩ := Option.map_eq_some_iff.mp h
  exact hR.trans (hR.after (.setRunning s hj true) hf ht) (hR.aside (.setRunning t hj _))

theorem processTapDanceActionOnReset_keeps (hj : ¬ watched j) (hsource : ¬ mine (.dance j true)) :
    Keeps R (processTapDanceActionOnReset env exec j) := by
  intro s s' h
  obtain ⟨t, ht, rfl⟩ := Option.map_eq_some_iff.mp h
  have hreset := hR.after (.slipIf s _ _) (callback_keeps hR hj (onDanceReset_keeps hR hexec hj hsource)) ht
  have hwrite : Aside mine watched t (t.write (.reset j (t.mods j))) := .write t hj
  exact hR.trans hreset (hR.trans (hR.aside hwrite)
    (hR.trans (hR.aside (.setAction _ hj _)) (hR.aside (.setMods _ hj _))))

theorem finishDance_keeps (hj : ¬ watched j) (hsource : ∀ held, ¬ mine (.dance j held)) :
    Keeps R (finishDance env exec j) := by
  intro s s' h
  have hwrite : ∀ u : Board, Aside mine watched u (u.write (.finished j (u.mods j))) := fun u => .write u hj
  exact hR.trans (hR.aside (.slipIf s _ .reentered)) (hR.trans (hR.aside (.setAction _ hj _))
    (hR.after (hwrite _) (callback_keeps hR hj (onDanceFinished_keeps hR hexec hj hsource)) h))

theorem processTapDanceActionOnDanceFinished_keeps (hj : ¬ watched j) (hsource : ∀ held, ¬ mine (.dance j held)) :
    Keeps R (processTapDanceActionOnDanceFinished env exec j) := by
  intro s s' h
  obtain ⟨t, ht, hts⟩ := Option.bind_eq_some_iff.mp h
  have hfinish : R s t := by
    split at ht
    · exact of_some ht (hR.refl s)
    · exact finishDance_keeps hR hexec hj hsource ht
  refine hR.trans hfinish (hR.trans (hR.aside (.inactive t)) ?_)
  dsimp only at hts
  split at hts
  · exact of_some hts (hR.refl _)
  · exact processTapDanceActionOnReset_keeps hR hexec hj (hsource true) hts

theorem Allows.handles (hj : ¬ watched j) (hsource : ∀ held, ¬ mine (.dance j held)) : Handles R env exec j where
  change s f _ := hR.aside (.setAction s hj (f (s.action j)))
  tap := processTapDanceActionOnEachTap_keeps hR hexec hj (hsource false)
  finish := processTapDanceActionOnDanceFinished_keeps hR hexec hj hsource
  reset := processTapDanceActionOnReset_keeps hR hexec hj (hsource true)

omit hexec

theorem processRecordVial_keeps (hj : IsTapDance keycode → Handles R env exec (qkTapDanceGetIndex keycode))
    (r : KeyRecord) : Keeps R (processRecordVial env exec keycode r) := by
  intro s s' h
  rw [processRecordVial] at h
  split at h
  case isTrue hif =>
    simp only [sub_qkTapDance hif.2] at h
    split at h
    · exact of_some h (hR.refl s)
    case _ td htd =>
      have hentry : Aside mine watched s { s with tdEntry := td } := .of_same rfl rfl rfl rfl rfl rfl rfl
      split at h
      · refine hR.trans (hR.aside hentry) (hR.trans ?_ ((hj hif.2).finish h))
        exact (hj hif.2).change { s with tdEntry := td } (·.setPressed false) fun _ => rfl
      · exact of_some h (hR.aside hentry)
  case isFalse => exact of_some h (hR.refl s)

theorem tapDancePress_keeps (hj : Handles R env exec (qkTapDanceGetIndex keycode))
    (hset : ∀ s, R s { s with activeTd := keycode }) : Keeps R (tapDancePress env exec keycode) := by
  intro s s' h
  obtain ⟨t, ht, rfl⟩ := Option.map_eq_some_iff.mp h
  refine hR.trans (hj.change s (·.setPressed true) fun _ => rfl) ?_
  refine hR.trans (hR.aside (.stamp _)) (hR.trans (hj.tap ht) ?_)
  split
  · exact hR.aside (.inactive t)
  · exact hset t

theorem tapDanceRelease_keeps (hj : Handles R env exec (qkTapDanceGetIndex keycode)) :
    Keeps R (tapDanceRelease env exec keycode) := by
  intro s s' h
  have hpressed := hj.change s (·.setPressed false) fun _ => rfl
  rw [tapDanceRelease] at h
  split at h
  · obtain ⟨t, ht, rfl⟩ := Option.map_eq_some_iff.mp h
    refine hR.trans hpressed (hR.trans (hj.reset ht) ?_)
    split
    · exact hR.aside (.inactive t)
    · exact hR.refl t
  · exact of_some h hpressed

theorem processTapDance_keeps (hj : IsTapDance keycode → Handles R env exec (qkTapDanceGetIndex keycode))
    (hset : IsTapDance keycode → ∀ s, R s { s with activeTd := keycode }) (r : KeyRecord) :
    Keeps R (processTapDance env exec keycode r) := by
  intro s s' h
  rw [processTapDance] at h
  split at h
  case isTrue htd =>
    split at h
    · exact tapDancePress_keeps hR (hj htd.1) (hset htd.1) h
    · exact tapDanceRelease_keeps hR (hj htd.1) h
  case isFalse => exact of_some h (hR.refl s)

include hexec in
theorem processKeycode_keeps (hplay : ¬ mine .macroPlay)
    (hj : IsTapDance keycode → Handles R env exec (qkTapDanceGetIndex keycode))
    (hset : IsTapDance keycode → ∀ s, R s { s with activeTd := keycode }) (r : KeyRecord) :
    Keeps R (processKeycode env exec keycode r) := by
  intro s s' h
  rw [processKeycode] at h
  split at h
  · exact sendMacro_keeps hR hexec hplay _ h
  · exact hR.bind (processRecordVial_keeps hR hj r) (processTapDance_keeps hR hj hset r) h

theorem preprocessTapDance_keeps (hj : Handles R env exec (qkTapDanceGetIndex s.activeTd)) {r : KeyRecord}
    {again : Bool} (h : preprocessTapDance env exec keycode r s = some (again, s')) : R s s' := by
  rw [preprocessTapDance] at h
  split_ifs at h
  · cases h
    exact hR.refl s
  · cases h
    exact hR.refl s
  · obtain ⟨t, ht, heq⟩ := Option.map_eq_some_iff.mp h
    cases heq
    exact hR.trans (hR.aside (@Aside.slipIf mine watched s _ _ .ended))
      (hR.trans (hj.change _ (·.setInterrupted) fun _ => rfl) (hR.trans (hj.finish ht) (hR.aside (.write t id))))

theorem tapDanceTask_keeps (hj : Handles R env exec (qkTapDanceGetIndex s.activeTd))
    (h : tapDanceTask env exec s = some s') : R s s' := by
  simp only [tapDanceTask] at h
  split_ifs at h
  · exact of_some h (hR.refl s)
  · exact of_some h (hR.refl s)
  · exact hj.finish h

end Rules

section Grows

def Grows (s s' : Board) : Prop := s.log <+: s'.log

theorem grows_allows : Allows (fun _ => False) (fun _ => False) Grows where
  refl _ := List.prefix_rfl
  trans h h' := List.IsPrefix.trans h h'
  aside h := by
    obtain ⟨new, hlog, -⟩ := h.log
    exact ⟨new, hlog.symm⟩

variable {env : DanceEnv} {exec : Exec} {s s' : Board}

section Calls

variable (hexec : ∀ r, Keeps Grows (exec r))

include hexec

theorem grows_handles (j : Nat) : Handles Grows env exec j :=
  grows_allows.handles (fun r _ => hexec r) id (fun _ => id)

theorem processRecord_grows (r : KeyRecord) : Keeps Grows (processRecord env exec r) := by
  intro s s' h
  obtain ⟨⟨again, t⟩, ht, hts⟩ := Option.bind_eq_some_iff.mp h
  have hpre : Grows s t := preprocessTapDance_keeps grows_allows (grows_handles hexec _) ht
  have hwrite := grows_allows.aside (.slipIf t (r.source.magic = true ∧
    (if again then getRecordKeycode env r t else getRecordKeycode env r s) ≠ r.keycode) .lost)
  have hrest := processKeycode_keeps grows_allows (fun r _ => hexec r) id (fun _ => grows_handles hexec _)
    (fun _ _ => List.prefix_rfl) r hts
  exact hpre.trans (hwrite.trans ((List.prefix_append _ _).trans hrest))

theorem passOn_grows (n : Nat) : Keeps Grows (passOn env exec n) := by
  induction n with
  | zero => exact fun _ _ h => of_some h List.prefix_rfl
  | succ n ih =>
    intro s s' h
    rw [passOn] at h
    split at h
    · exact of_some h List.prefix_rfl
    case _ r rest hwaiting =>
      obtain ⟨t, ht, hts⟩ := Option.bind_eq_some_iff.mp h
      have hhead : Grows (s.setWaiting rest) t := processRecord_grows hexec r ht
      exact hhead.trans (ih hts)

theorem actionExecBody_grows (r : KeyRecord) : Keeps Grows (actionExecBody env exec r) := by
  intro s s' h
  have hwait : Grows (s.wait r) s' := passOn_grows hexec _ h
  exact hwait

end Calls

theorem actionExec_grows (depth : Nat) (r : KeyRecord) : Keeps Grows (actionExec env depth r) :=
  tie_keeps (fun _ => actionExecBody_grows) depth r

theorem Step.exec_grows {depth : Nat} (step : Step) (h : step.exec env depth s = some s') : Grows s s' := by
  cases step with
  | key pos pressed => exact actionExec_grows depth _ h
  | record pos pressed => exact processRecord_grows (actionExec_grows depth) _ h
  | pass n => exact passOn_grows (actionExec_grows depth) n h
  | task => exact tapDanceTask_keeps grows_allows (grows_handles (actionExec_grows depth) _) h
  | elapse ms => exact of_some h List.prefix_rfl

end Grows

end TapDance
end Keys
end VialQmk
