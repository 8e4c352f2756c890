import VialQmk.Keys.TapDanceFrame

/-!
# Keys.TapDanceOrder

The press of a keycode by `on_dance_finished` and its release by `on_dance_reset`, as the pipeline processes them,
and the modifiers that a dance adds and takes off.

* `PressBeforeRelease`: what a dance issues is processed in order, presses and releases alternate, and once the dance
  is reset nothing that it set remains on.
* `press_before_release`: so it is in every run without a `Slip`.
* `layer_on_tap_stuck`: a dance with a layer on a tap. Its press calls `preprocess_tap_dance` while the dance is
  still active, which resets the dance, and the release is processed before the press.
-/

namespace VialQmk
namespace Keys
namespace TapDance

open Eeprom Lib

/-! ## Presses and releases -/

/-- Presses and releases that alternate; whether the key is down behind them. -/
def play : Bool → List Bool → Option Bool
  | down, [] => some down
  | down, pressed :: l => if pressed = down then none else play pressed l

theorem play_append (down : Bool) (l l' : List Bool) : play down (l ++ l') = (play down l).bind (play · l') := by
  induction l generalizing down with
  | nil => rfl
  | cons pressed l ih =>
    rw [List.cons_append, play, play]
    split
    · rfl
    · exact ih pressed

theorem play_down {l : List Bool} (h : play false l = some false) : play false (l ++ [true]) = some true := by
  rw [play_append, h]
  rfl

theorem play_up {l : List Bool} (h : play false l = some true) : play false (l ++ [false]) = some false := by
  rw [play_append, h]
  rfl

/-- The presses and releases of the keycode that `on_dance_finished` and `on_dance_reset` of the dance issued. -/
def heldIssued (i : Nat) (k : UInt16) (log : List Event) : List Bool :=
  log.filterMap fun
    | .issued r => if r.source = .dance i true ∧ r.keycode = k then some r.pressed else none
    | _ => none

def heldOf (i : Nat) (k : UInt16) (log : List Event) : List Bool :=
  log.filterMap fun
    | .processed r keycode => if r.source = .dance i true ∧ keycode = k then some r.pressed else none
    | _ => none

def heldWaiting (i : Nat) (k : UInt16) (waiting : List KeyRecord) : List Bool :=
  waiting.filterMap fun r => if r.source = .dance i true ∧ r.keycode = k then some r.pressed else none

/-! ## Modifiers -/

def hasMod (m : UInt8) (b : Nat) : Bool := m.toBitVec.getLsbD b

/-- Something that the keyboard shows has been on ever since it was set. -/
def stays (shown : List Event → Bool) (change : Bool → Event → Bool) : List Event → Bool → List Event → Bool
  | _, on, [] => on
  | before, on, e :: l => stays shown change (before ++ [e]) (change on e && shown (before ++ [e])) l

/-- The dance sets a modifier when it has finished, and takes it off when it is reset. -/
def setBy (part : DanceMods → UInt8) (i b : Nat) (on : Bool) : Event → Bool
  | .finished j m => if j = i then on || hasMod (part m) b else on
  | .reset j m => if j = i then on && !hasMod (part m) b else on
  | _ => on

def remains (env : DanceEnv) (shown : Mods → UInt8) (part : DanceMods → UInt8) (i b : Nat) (log : List Event) : Bool :=
  stays (fun log => hasMod (shown (env.mods log)) b) (setBy part i b) [] false log

/-! ## Specification -/

def hasFinished (i : Nat) (log : List Event) : Bool :=
  log.foldl (fun finished e => match e with
    | .finished j _ => if j = i then true else finished
    | .reset j _ => if j = i then false else finished
    | _ => finished) false

structure PressBeforeRelease (env : DanceEnv) (s : Board) : Prop where
  /-- Of each keycode, what a dance issues is processed in order, or waits. -/
  processed : ∀ i k, heldIssued i k s.log = heldOf i k s.log ++ heldWaiting i k s.waiting
  /-- Presses and releases alternate, and the last is a release once the dance is reset. -/
  order : ∀ i k, ∃ down, play false (heldIssued i k s.log) = some down ∧ (hasFinished i s.log = false → down = false)
  /-- Once the dance is reset, no modifier that it set remains on. -/
  modifiers : ∀ i, hasFinished i s.log = false → ∀ b,
    remains env Mods.real DanceMods.oneshotMods i b s.log = false ∧
    remains env Mods.weak DanceMods.weakMods i b s.log = false

/-- The keycode that the dance holds down, 0 if there is none. -/
def heldNow (env : DanceEnv) (i : Nat) (s : Board) : UInt16 :=
  match env.entries[i]? with
  | none => 0
  | some td => heldKeycode td (s.danceState i)

theorem heldIssued_append (i : Nat) (k : UInt16) (l l' : List Event) :
    heldIssued i k (l ++ l') = heldIssued i k l ++ heldIssued i k l' := List.filterMap_append

theorem heldOf_append (i : Nat) (k : UInt16) (l l' : List Event) :
    heldOf i k (l ++ l') = heldOf i k l ++ heldOf i k l' := List.filterMap_append

def Event.Sets (i : Nat) : Event → Prop
  | .finished j _ | .reset j _ => j = i
  | _ => False

theorem heldOf_of_not {i : Nat} {new : List Event} (h : ∀ e ∈ new, ¬ e.Of (· = .dance i true) (· = i)) (k : UInt16) :
    heldOf i k new = [] := by
  refine List.filterMap_eq_nil_iff.mpr fun e he => ?_
  cases e with
  | processed r keycode => exact if_neg fun hif => h _ he hif.1
  | _ => rfl

theorem heldIssued_of_not {i : Nat} {new : List Event} (h : ∀ e ∈ new, ¬ e.Of (· = .dance i true) (· = i))
    (k : UInt16) : heldIssued i k new = [] := by
  refine List.filterMap_eq_nil_iff.mpr fun e he => ?_
  cases e with
  | issued r => exact if_neg fun hif => h _ he hif.1
  | _ => rfl

theorem stays_append (shown : List Event → Bool) (change : Bool → Event → Bool) (before : List Event) (on : Bool)
    (l l' : List Event) :
    stays shown change before on (l ++ l') = stays shown change (before ++ l) (stays shown change before on l) l' := by
  induction l generalizing before on with
  | nil => rw [List.append_nil]; rfl
  | cons e l ih => rw [List.cons_append, stays, ih, stays, List.append_assoc, List.singleton_append]

theorem hasFinished_append (i : Nat) (l : List Event) (e : Event) : hasFinished i (l ++ [e]) = match e with
    | .finished j _ => if j = i then true else hasFinished i l
    | .reset j _ => if j = i then false else hasFinished i l
    | _ => hasFinished i l := by
  rw [hasFinished, List.foldl_append]
  rfl

section Remains

variable {env : DanceEnv} {shown : Mods → UInt8} {part : DanceMods → UInt8} {i b : Nat} {l : List Event}

theorem remains_append (e : Event) : remains env shown part i b (l ++ [e]) =
    (setBy part i b (remains env shown part i b l) e && hasMod (shown (env.mods (l ++ [e]))) b) := by
  rw [remains, stays_append, List.nil_append]
  rfl

theorem remains_shown (h : remains env shown part i b l = true) : hasMod (shown (env.mods l)) b = true := by
  rcases List.eq_nil_or_concat l with rfl | ⟨l, e, rfl⟩
  · cases h
  · rw [List.concat_eq_append, remains_append, Bool.and_eq_true] at h
    exact List.concat_eq_append ▸ h.2

theorem setBy_of_not {e : Event} (h : ¬ e.Sets i) (on : Bool) : setBy part i b on e = on := by
  cases e with
  | finished j m => exact if_neg h
  | reset j m => exact if_neg h
  | _ => rfl

theorem hasFinished_of_not {e : Event} (h : ¬ e.Sets i) : hasFinished i (l ++ [e]) = hasFinished i l := by
  rw [hasFinished_append]
  cases e with
  | finished j m => exact if_neg h
  | reset j m => exact if_neg h
  | _ => rfl

end Remains

theorem heldWaiting_of_not {i : Nat} {k : UInt16} {waiting : List KeyRecord}
    (h : ∀ r ∈ waiting, ¬ (r.source = .dance i true ∧ r.keycode = k)) : heldWaiting i k waiting = [] :=
  List.filterMap_eq_nil_iff.mpr fun r hr => if_neg (h r hr)

/-! ## The invariant -/

structure InOrder (env : DanceEnv) (i : Nat) (s : Board) : Prop where
  order : ∀ k, play false (heldIssued i k s.log) = some (decide (k ≠ 0 ∧ heldNow env i s = k))
  finished : s.danceState i ≠ .none → (s.action i).finished = true
  entry : env.entries[i]? = none → s.danceState i = .none

/-- What a dance set remains on only while it has finished, and among the modifiers that it takes off. -/
structure ModsKept (env : DanceEnv) (i : Nat) (s : Board) : Prop where
  finished : hasFinished i s.log = (s.action i).finished
  real : ∀ b, remains env Mods.real DanceMods.oneshotMods i b s.log = true →
    (s.action i).finished = true ∧ hasMod (s.mods i).oneshotMods b = true
  weak : ∀ b, remains env Mods.weak DanceMods.weakMods i b s.log = true →
    (s.action i).finished = true ∧ hasMod (s.mods i).weakMods b = true

/-- While a callback of the dance runs, nothing else presses or releases for it. -/
structure Frozen (i : Nat) (s s' : Board) : Prop where
  issued : ∀ k, heldIssued i k s'.log = heldIssued i k s.log
  danceState : s'.danceState i = s.danceState i
  finished : s.danceState i ≠ .none → (s.action i).finished = true → (s'.action i).finished = true

/-- What waits of the dance has to go through the pipeline, and is what was issued and not processed. -/
structure Waits (i : Nat) (s : Board) : Prop where
  magic : ∀ r ∈ s.waiting, r.source = .dance i true → ¬ r.keycode ≤ qkModsMax
  processed : ∀ k, heldIssued i k s.log = heldOf i k s.log ++ heldWaiting i k s.waiting

structure Ordered (env : DanceEnv) (i : Nat) (s s' : Board) : Prop where
  waits : Waits i s'
  mods : ModsKept env i s → ModsKept env i s'
  running : s'.running i = s.running i
  frozen : s.running i = true → Frozen i s s'
  inOrder : s.running i = false → InOrder env i s → InOrder env i s'

def IsSlip (e : Event) : Prop := ∃ x, e = .slip x

abbrev Owes (env : DanceEnv) (i : Nat) : Board → Board → Prop :=
  Unless IsSlip Board.log fun s s' => Waits i s → Ordered env i s s'

section Contract

variable {env : DanceEnv} {i : Nat} {s s' s'' : Board}

theorem Frozen.trans (h : Frozen i s s') (h' : Frozen i s' s'') : Frozen i s s'' :=
  ⟨fun k => (h'.issued k).trans (h.issued k), h'.danceState.trans h.danceState,
    fun hne hf => h'.finished (h.danceState.symm ▸ hne) (h.finished hne hf)⟩

theorem Ordered.trans (h : Ordered env i s s') (h' : Ordered env i s' s'') : Ordered env i s s'' :=
  ⟨h'.waits, fun hm => h'.mods (h.mods hm), h'.running.trans h.running,
    fun hr => (h.frozen hr).trans (h'.frozen (h.running.trans hr)),
    fun hr hinv => h'.inOrder (h.running.trans hr) (h.inOrder hr hinv)⟩

theorem Owes.trans (h : Owes env i s s') (h' : Owes env i s' s'') : Owes env i s s'' :=
  Unless.trans (fun hab hbc hw => (hab hw).trans (hbc (hab hw).waits)) h h'

theorem heldNow_congr (h : s'.danceState i = s.danceState i) : heldNow env i s' = heldNow env i s := by
  rw [heldNow, heldNow, h]

theorem ModsKept.congr (h : ModsKept env i s) (hlog : s'.log = s.log)
    (hfinished : (s'.action i).finished = (s.action i).finished) (hmods : s'.mods i = s.mods i) :
    ModsKept env i s' := by
  refine ⟨?_, ?_, ?_⟩ <;> rw [hlog, hfinished]
  · exact h.finished
  · rw [hmods]
    exact h.real
  · rw [hmods]
    exact h.weak

theorem ModsKept.of_not (h : ModsKept env i s) {new : List Event} (hnew : ∀ e ∈ new, ¬ e.Sets i)
    (hlog : s'.log = s.log ++ new) (hfinished : (s'.action i).finished = (s.action i).finished)
    (hmods : s'.mods i = s.mods i) : ModsKept env i s' := by
  induction new generalizing s with
  | nil => exact h.congr (hlog.trans (List.append_nil _)) hfinished hmods
  | cons e new ih =>
    have he : ¬ e.Sets i := hnew e List.mem_cons_self
    refine ih (s := s.write e) ⟨?_, fun b hb => h.real b ?_, fun b hb => h.weak b ?_⟩
      (fun x hx => hnew x (List.mem_cons_of_mem e hx)) (by rw [hlog, Board.write, List.append_assoc]; rfl)
      hfinished hmods
    · exact (hasFinished_of_not he).trans h.finished
    all_goals
      rw [Board.write, remains_append, setBy_of_not he, Bool.and_eq_true] at hb
      exact hb.1

theorem ordered_of_same (hissued : ∀ k, heldIssued i k s'.log = heldIssued i k s.log) (hwaits : Waits i s')
    (hmods : ModsKept env i s → ModsKept env i s') (hdance : s'.danceState i = s.danceState i)
    (hrunning : s'.running i = s.running i)
    (hfinished : (s.action i).finished = true → s.danceState i ≠ .none → (s'.action i).finished = true) :
    Ordered env i s s' := by
  refine ⟨hwaits, hmods, hrunning, fun _ => ⟨hissued, hdance, fun hne hf => hfinished hf hne⟩,
    fun _ hinv => ⟨?_, ?_, ?_⟩⟩
  · intro k
    rw [hissued, heldNow_congr hdance]
    exact hinv.order k
  · intro hne
    rw [hdance] at hne
    exact hfinished (hinv.finished hne) hne
  · intro hnone
    rw [hdance]
    exact hinv.entry hnone

theorem ordered_of_log (hlog : s'.log = s.log) (hwaiting : s'.waiting = s.waiting) (hw : Waits i s)
    (hmods : ModsKept env i s → ModsKept env i s') (hdance : s'.danceState i = s.danceState i)
    (hrunning : s'.running i = s.running i)
    (hfinished : (s.action i).finished = true → s.danceState i ≠ .none → (s'.action i).finished = true) :
    Ordered env i s s' := by
  refine ordered_of_same (fun k => by rw [hlog]) ⟨?_, ?_⟩ hmods hdance hrunning hfinished
  · rw [hwaiting]
    exact hw.magic
  · rw [hwaiting, hlog]
    exact hw.processed

theorem owes_allows (env : DanceEnv) (i : Nat) : Allows (· = .dance i true) (· = i) (Owes env i) where
  refl s := .of_same rfl fun hw => ordered_of_log rfl rfl hw id rfl rfl fun hf _ => hf
  trans h h' := h.trans h'
  aside {s s'} h := by
    obtain ⟨new, hlog, hnew⟩ := h.log
    refine ⟨new, hlog, fun _ hw => ordered_of_same ?_ ⟨?_, ?_⟩ ?_ (h.danceState i rfl) (h.running i rfl) ?_⟩
    · intro k
      rw [hlog, heldIssued_append, heldIssued_of_not hnew, List.append_nil]
    · rw [h.waiting]
      exact hw.magic
    · intro k
      rw [hlog, h.waiting, heldIssued_append, heldIssued_of_not hnew, heldOf_append, heldOf_of_not hnew,
        List.append_nil, List.append_nil]
      exact hw.processed k
    · refine fun hm => hm.of_not (fun e he hsets => hnew e he ?_) hlog (by rw [h.action i rfl]) (h.mods i rfl)
      cases e with
      | finished j m | reset j m => exact hsets
      | _ => cases hsets
    · rw [h.action i rfl]
      exact fun hf _ => hf

theorem unless_of_slip {R : Board → Board → Prop} {x : Slip} (h : Grows (s.write (.slip x)) s') :
    Unless IsSlip Board.log R s s' := by
  obtain ⟨new, hlog⟩ := h
  refine ⟨.slip x :: new, by rw [← hlog, Board.write, List.append_assoc]; rfl, fun hnew => ?_⟩
  exact absurd ⟨x, rfl⟩ (hnew _ List.mem_cons_self)

theorem owes_change (s : Board) (j : Nat) (f : DanceState → DanceState) (hf : ∀ t, (f t).finished = t.finished) :
    Owes env i s (s.setAction j (f (s.action j))) := by
  have hfinished : ((s.setAction j (f (s.action j))).action i).finished = (s.action i).finished := by
    by_cases hj : i = j
    · subst hj
      rw [Board.setAction_self, hf]
    · rw [Board.setAction_of_ne s _ hj]
  exact .of_same rfl fun hw => ordered_of_log rfl rfl hw (fun hm => hm.congr rfl hfinished rfl) rfl rfl
    fun h _ => hfinished.trans h

theorem heldWaiting_snoc (i : Nat) (k : UInt16) (waiting : List KeyRecord) (r : KeyRecord) :
    heldWaiting i k (waiting ++ [r]) =
      heldWaiting i k waiting ++ if r.source = .dance i true ∧ r.keycode = k then [r.pressed] else [] := by
  rw [heldWaiting, List.filterMap_append]
  congr 1
  by_cases h : r.source = .dance i true ∧ r.keycode = k
  · simp [h]
  · simp [h]

theorem owes_wait (s : Board) {r : KeyRecord} (hr : ¬ r.source = .dance i true) : Owes env i s (s.wait r) := by
  refine .of_same rfl fun hw => ordered_of_same (fun _ => rfl) ⟨?_, fun k => ?_⟩ (fun hm => hm.congr rfl rfl rfl)
    rfl rfl fun hf _ => hf
  · intro x hx hsource
    rcases List.mem_append.mp hx with hx | hx
    · exact hw.magic x hx hsource
    · rw [List.mem_singleton.mp hx] at hsource
      exact absurd hsource hr
  · show _ = _ ++ heldWaiting i k (s.waiting ++ [r])
    rw [heldWaiting_snoc, if_neg fun h => hr h.1, List.append_nil]
    exact hw.processed k

theorem Waits.clear {b : Bool} (hw : Waits i s) : Waits i (clearAction i (s.setRunning i b)) := by
  refine ⟨hw.magic, fun k => ?_⟩
  show heldIssued i k (s.log ++ [_]) = heldOf i k (s.log ++ [_]) ++ heldWaiting i k s.waiting
  rw [heldIssued_append, heldOf_append, hw.processed]
  simp [heldIssued, heldOf]

def Board.begun (s : Board) (i : Nat) : Board :=
  (s.setAction i (s.action i).setFinished).write (.finished i (s.mods i))

structure Issued (env : DanceEnv) (i : Nat) (k : UInt16) (pressed : Bool) (s s' : Board) : Prop where
  issued : ∀ k', heldIssued i k' s'.log = heldIssued i k' s.log ++ if k = k' then [pressed] else []
  action : s'.action = s.action
  mods : ModsKept env i s → ModsKept env i s'
  danceState : s'.danceState = s.danceState
  running : s'.running = s.running
  waits : Waits i s'

end Contract

section Calls

variable {env : DanceEnv} {exec : Exec} {i : Nat} {s s' : Board} (hgrows : ∀ r, Keeps Grows (exec r))
  (hexec : ∀ r s s', exec r s = some s' → Owes env i (s.wait r) s')

include hexec

theorem call_owes (r : KeyRecord) (hr : ¬ r.source = .dance i true) : Keeps (Owes env i) (exec r) :=
  fun s s' h => (owes_wait s hr).trans (hexec r s s' h)

/-- A press or release of the dance is issued, and then whatever happens before the call returns. -/
theorem vialKeycode_issued {k : UInt16} {pressed : Bool} (h : vialKeycode exec (.dance i true) k pressed s = some s') :
    ∃ t, Unless IsSlip Board.log (fun s t => Waits i s → Issued env i k pressed s t) s t ∧ Owes env i t s' := by
  have hmods : ∀ {t : Board} {new : List Event}, (∀ e ∈ new, ¬ e.Sets i) → t.log = s.log ++ new →
      t.action = s.action → t.mods = s.mods → ModsKept env i s → ModsKept env i t := fun hnew hlog ha hm h =>
    h.of_not hnew hlog (by rw [ha]) (by rw [hm])
  rw [vialKeycode] at h
  split at h
  case isTrue hk =>
    have hlog : s'.log = s.log ++ [.issued ⟨.dance i true, k, pressed⟩, .processed ⟨.dance i true, k, pressed⟩ k] := by
      rw [← Option.some.inj h]
      exact List.append_assoc ..
    refine ⟨s', ⟨_, hlog, fun _ hw => ?_⟩, (owes_allows env i).refl s'⟩
    have hissued (k' : UInt16) :
        heldIssued i k' s'.log = heldIssued i k' s.log ++ if k = k' then [pressed] else [] := by
      rw [hlog, heldIssued_append]
      by_cases heq : k = k' <;> simp [heldIssued, heq]
    rw [← Option.some.inj h] at hlog hissued ⊢
    refine ⟨hissued, rfl, hmods (by simp [Event.Sets]) hlog rfl rfl, rfl, rfl, hw.magic, fun k' => ?_⟩
    -- nothing of the keycode waits
    have hnone : k = k' → heldWaiting i k' s.waiting = [] := fun heq =>
      heldWaiting_of_not fun r hr hif => hw.magic r hr hif.1 (by rw [hif.2, ← heq]; exact hk)
    rw [hissued, hw.processed, hlog, heldOf_append]
    show _ = _ ++ heldWaiting i k' s.waiting
    by_cases heq : k = k'
    · rw [hnone heq]
      simp [heldOf, heq]
    · simp [heldOf, heq]
  case isFalse hk =>
    refine ⟨_, ?_, hexec _ _ _ h⟩
    refine .of_write rfl fun _ hw => ?_
    have hissued (k' : UInt16) : heldIssued i k' (s.log ++ [.issued ⟨.dance i true, k, pressed⟩]) =
        heldIssued i k' s.log ++ if k = k' then [pressed] else [] := by
      rw [heldIssued_append]
      by_cases heq : k = k' <;> simp [heldIssued, heq]
    refine ⟨hissued, rfl, hmods (by simp [Event.Sets]) rfl rfl rfl, rfl, rfl, ?_, fun k' => ?_⟩
    · intro r hr hsource
      rcases List.mem_append.mp hr with hr | hr
      · exact hw.magic r hr hsource
      · rw [List.mem_singleton.mp hr]
        exact hk
    · show heldIssued i k' (s.log ++ [_]) = heldOf i k' (s.log ++ [_]) ++ heldWaiting i k' (s.waiting ++ [_])
      rw [hissued, hw.processed, heldOf_append, heldWaiting_snoc]
      simp [heldOf]

/-! ## The callbacks of the dance -/

/-- Within a callback: the outcome of the dance is set, and perhaps a press or release of its keycode was issued. -/
structure Calling (env : DanceEnv) (i : Nat) (st : Outcome) (keycode : UInt16) (out : List Bool) (s s' : Board) :
    Prop where
  issued : ∀ k, heldIssued i k s'.log = heldIssued i k s.log ++ if keycode = k then out else []
  mods : ModsKept env i s → ModsKept env i s'
  danceState : s'.danceState i = st
  finished : st ≠ .none → (s.action i).finished = true → (s'.action i).finished = true
  running : s'.running i = true
  waits : Waits i s'

section

variable {st : Outcome} {keycode : UInt16} {out : List Bool} {t u : Board}

omit hexec

theorem calling_outcome (td : VialTapDanceEntry) (keycode : UInt16) (hrunning : s.running i = true)
    (hw : Waits i s) : Calling env i (danceStep (s.action i)) keycode [] s (s.outcome i td) :=
  ⟨fun k => by rw [ite_self, List.append_nil]; rfl, fun hm => hm.congr rfl rfl rfl, Board.setDanceState_self ..,
    fun _ => id, hrunning, ⟨hw.magic, hw.processed⟩⟩

theorem calling_noOutcome (td : VialTapDanceEntry) (keycode : UInt16) (hrunning : s.running i = true)
    (hw : Waits i s) : Calling env i .none keycode [] s (s.noOutcome i td) :=
  ⟨fun k => by rw [ite_self, List.append_nil]; rfl,
    fun hm => hm.congr rfl (by simp [Board.noOutcome, Board.setAction, Board.setDanceState, DanceState.setCount]) rfl,
    Board.setDanceState_self .., fun h => absurd rfl h, hrunning, ⟨hw.magic, hw.processed⟩⟩

theorem Calling.owes (h : Calling env i st keycode out s t) (howes : Waits i t → Ordered env i t s') :
    Calling env i st keycode out s s' := by
  have hord := howes h.waits
  have hfrozen := hord.frozen h.running
  exact ⟨fun k => (hfrozen.issued k).trans (h.issued k), fun hm => hord.mods (h.mods hm),
    hfrozen.danceState.trans h.danceState, fun hne hf => hfrozen.finished (h.danceState ▸ hne) (h.finished hne hf),
    hord.running.trans h.running, hord.waits⟩

theorem Calling.issue {pressed : Bool} (h : Calling env i st keycode [] s t)
    (hissued : Waits i t → Issued env i keycode pressed t u) : Calling env i st keycode [pressed] s u := by
  have hissue := hissued h.waits
  refine ⟨fun k => ?_, fun hm => hissue.mods (h.mods hm), ?_, ?_, ?_, hissue.waits⟩
  · rw [hissue.issued, h.issued, ite_self, List.append_nil]
  · rw [hissue.danceState]
    exact h.danceState
  · rw [hissue.action]
    exact h.finished
  · rw [hissue.running]
    exact h.running

end

theorem vialKeycode_calling (s : Board) (st : Outcome) {keycode : UInt16} {pressed : Bool} {u : Board}
    (h : vialKeycode exec (.dance i true) keycode pressed u = some s') :
    Unless IsSlip Board.log (fun u s' => Calling env i st keycode [] s u → Calling env i st keycode [pressed] s s')
      u s' := by
  obtain ⟨t, hissued, howes⟩ := vialKeycode_issued hexec h
  exact hissued.comp howes fun hissued howes hu => (hu.issue hissued).owes howes

variable {td : VialTapDanceEntry}

include hgrows in
theorem onDanceFinished_calling (htd : env.entries[i]? = some td) (hrunning : s.running i = true)
    (h : onDanceFinished env exec i s = some s') :
    Unless IsSlip Board.log (fun s s' => Waits i s → Calling env i (danceStep (s.action i))
      (heldKeycode td (danceStep (s.action i)))
      (if heldKeycode td (danceStep (s.action i)) = 0 then [] else [true]) s s') s s' := by
  obtain ⟨hzero, heq⟩ | ⟨hne, heq⟩ | ⟨hne, next, hnext, heq⟩ := onDanceFinished_cases exec htd s <;> rw [heq] at h
  · rw [← Option.some.inj h]
    refine .of_same rfl fun hw => ?_
    rw [if_pos hzero]
    exact calling_outcome td _ hrunning hw
  · refine Unless.within (b := s.outcome i td) rfl rfl (vialKeycode_calling hexec s (danceStep (s.action i)) h)
      fun hpress hw => ?_
    rw [if_neg hne]
    exact hpress (calling_outcome td _ hrunning hw)
  · obtain ⟨t, ht, hts⟩ := Option.bind_eq_some_iff.mp h
    have hother : ¬ (Source.dance i false) = .dance i true := fun hc => by cases hc
    have htap := vialKeycodeTap_keeps (owes_allows env i) (call_owes hexec) hother _ ht
    have hpress : vialKeycodeDown exec (.dance i true)
        (next (t.slipIf (t.tdEntry ≠ (s.outcome i td).tdEntry) .overwritten).tdEntry)
        (t.slipIf (t.tdEntry ≠ (s.outcome i td).tdEntry) .overwritten) = some s' := hts
    by_cases hentry : t.tdEntry = td
    · rw [show t.slipIf (t.tdEntry ≠ (s.outcome i td).tdEntry) .overwritten = t from if_neg fun hc => hc hentry, hentry,
        hnext] at hpress
      have hrest : Unless IsSlip Board.log (fun u s' => Calling env i (danceStep (s.action i))
          (heldKeycode td (danceStep (s.action i))) [] s u → Calling env i (danceStep (s.action i))
          (heldKeycode td (danceStep (s.action i))) [true] s s') (s.outcome i td) s' :=
        htap.comp (vialKeycode_calling hexec s _ hpress) fun htap hpress hu => hpress (hu.owes htap)
      refine Unless.within (b := s.outcome i td) rfl rfl hrest fun hpress hw => ?_
      rw [if_neg hne]
      exact hpress (calling_outcome td _ hrunning hw)
    · -- the callback goes on with another entry
      rw [show t.slipIf (t.tdEntry ≠ (s.outcome i td).tdEntry) .overwritten = t.write (.slip .overwritten) from
        if_pos hentry] at hpress
      have hgrow := vialKeycode_keeps grows_allows (fun r _ => hgrows r) id _ true hpress
      have hrest : Unless IsSlip Board.log (fun _ _ => False) (s.outcome i td) s' :=
        htap.comp (unless_of_slip hgrow (R := fun _ _ => False)) fun _ hfalse => hfalse
      exact Unless.within (b := s.outcome i td) rfl rfl hrest False.elim

theorem onDanceReset_calling (htd : env.entries[i]? = some td) (hrunning : s.running i = true)
    (h : onDanceReset env exec i s = some s') :
    Unless IsSlip Board.log (fun s s' => Waits i s → Calling env i .none (heldKeycode td (s.danceState i))
      (if heldKeycode td (s.danceState i) = 0 then [] else [false]) s s') s s' := by
  rw [onDanceReset_eq exec htd] at h
  split at h
  case isTrue hzero =>
    rw [← Option.some.inj h]
    refine .of_same rfl fun hw => ?_
    rw [if_pos hzero]
    exact calling_noOutcome td _ hrunning hw
  case isFalse hne =>
    refine Unless.within (b := s.noOutcome i td) rfl rfl (vialKeycode_calling hexec s .none h) fun hrelease hw => ?_
    rw [if_neg hne]
    exact hrelease (calling_noOutcome td _ hrunning hw)

omit hexec in
theorem ModsKept.finish (h : ModsKept env i s) (hnot : (s.action i).finished = false) :
    ModsKept env i (s.begun i) := by
  have hfinished : ((s.begun i).action i).finished = true := congrArg DanceState.finished (s.setAction_self _)
  have hon : ∀ {shown part b}, (remains env shown part i b s.log = true → (s.action i).finished = true) →
      remains env shown part i b (s.begun i).log = true → hasMod (part (s.mods i)) b = true := by
    intro shown part b hbefore hb
    have hnone : remains env shown part i b s.log = false :=
      Bool.eq_false_iff.mpr fun hr => Bool.false_ne_true (hnot.symm.trans (hbefore hr))
    rw [Board.begun, Board.write, remains_append, Bool.and_eq_true, setBy, if_pos rfl] at hb
    rw [show (s.setAction i _).log = s.log from rfl, hnone, Bool.false_or] at hb
    exact hb.1
  refine ⟨?_, fun b hb => ⟨hfinished, hon (fun hr => (h.real b hr).1) hb⟩,
    fun b hb => ⟨hfinished, hon (fun hr => (h.weak b hr).1) hb⟩⟩
  rw [hfinished, Board.begun, Board.write, hasFinished_append]
  exact if_pos rfl

omit hexec in
theorem ModsKept.clear (h : ModsKept env i s) : ModsKept env i (clearAction i s) := by
  have hoff : ∀ {shown part b}, (remains env shown part i b s.log = true → hasMod (part (s.mods i)) b = true) →
      remains env shown part i b (s.log ++ [.reset i (s.mods i)]) ≠ true := by
    intro shown part b hbefore hb
    rw [remains_append, Bool.and_eq_true, setBy, if_pos rfl, Bool.and_eq_true] at hb
    rw [hbefore hb.1.1] at hb
    exact Bool.false_ne_true hb.1.2
  refine ⟨?_, fun b hb => absurd hb (hoff fun hr => (h.real b hr).2),
    fun b hb => absurd hb (hoff fun hr => (h.weak b hr).2)⟩
  show hasFinished i (s.log ++ [_]) = _
  rw [hasFinished_append]
  simp [clearAction, Board.setMods, Board.setAction, DanceState.zero]

omit hexec in
theorem ordered_of_finished {t : Board} (htd : env.entries[i]? = some td) (hnot : (s.action i).finished = false)
    (hrunning : s.running i = false)
    (h : Calling env i (danceStep (s.action i)) (heldKeycode td (danceStep (s.action i)))
      (if heldKeycode td (danceStep (s.action i)) = 0 then [] else [true]) ((s.begun i).setRunning i true) t) :
    Ordered env i s (t.setRunning i (s.running i)) := by
  have haction : ((s.begun i).setRunning i true).action i = (s.action i).setFinished := s.setAction_self _
  refine ⟨⟨h.waits.magic, h.waits.processed⟩,
    fun hm => (h.mods ((hm.finish hnot).congr rfl rfl rfl)).congr rfl rfl rfl, Board.setRunning_self ..,
    fun hr => absurd (hrunning.symm.trans hr) Bool.false_ne_true,
    fun _ hinv => ⟨fun k => ?_, fun hne => h.finished (fun hn => hne (h.danceState.trans hn)) (by rw [haction]; rfl),
      fun hn => ?_⟩⟩
  · have hnone : s.danceState i = .none := by
      by_contra hne
      exact Bool.false_ne_true (hnot.symm.trans (hinv.finished hne))
    have hbefore := hinv.order k
    have hnow : heldNow env i s = 0 := by rw [heldNow, htd, hnone]; rfl
    have hnow' : heldNow env i (t.setRunning i (s.running i)) = heldKeycode td (danceStep (s.action i)) := by
      rw [heldNow, htd]
      exact congrArg (heldKeycode td) h.danceState
    rw [hnow, decide_eq_false fun hc => hc.1 hc.2.symm] at hbefore
    rw [hnow']
    show play false (heldIssued i k t.log) = _
    rw [h.issued k, show heldIssued i k ((s.begun i).setRunning i true).log = heldIssued i k s.log from
      (heldIssued_append ..).trans (List.append_nil _)]
    by_cases hk : heldKeycode td (danceStep (s.action i)) = k
    · by_cases hzero : heldKeycode td (danceStep (s.action i)) = 0
      · rw [if_pos hk, if_pos hzero, List.append_nil, hbefore, decide_eq_false fun hc => hc.1 (hk.symm.trans hzero)]
      · rw [if_pos hk, if_neg hzero, play_down hbefore, decide_eq_true ⟨fun hc => hzero (hk.trans hc), hk⟩]
    · rw [if_neg hk, List.append_nil, hbefore, decide_eq_false fun hc => hk hc.2]
  · rw [htd] at hn
    cases hn

include hgrows in
theorem finishDance_owes (hnot : (s.action i).finished = false) (h : finishDance env exec i s = some s') :
    Owes env i s s' := by
  rw [finishDance, Board.slipIf] at h
  by_cases hrunning : s.running i = true
  · -- a callback of the dance is running
    rw [if_pos hrunning] at h
    have hgrow := callback_keeps grows_allows id (onDanceFinished_keeps grows_allows (fun r _ => hgrows r) id
      (fun _ => id)) h
    exact unless_of_slip ((List.prefix_append _ _).trans hgrow)
  · rw [if_neg hrunning] at h
    obtain ⟨t, ht, rfl⟩ := Option.map_eq_some_iff.mp h
    have hfalse : s.running i = false := Bool.eq_false_iff.mpr hrunning
    have hwaits : Waits i s → Waits i ((s.begun i).setRunning i true) := fun hw => ⟨hw.magic, fun k => by
      show heldIssued i k (s.log ++ [_]) = heldOf i k (s.log ++ [_]) ++ heldWaiting i k s.waiting
      rw [heldIssued_append, heldOf_append, hw.processed]
      simp [heldIssued, heldOf]⟩
    have hbegun : Unless IsSlip Board.log (fun s u => u = (s.begun i).setRunning i true) s
        ((s.begun i).setRunning i true) := .of_write rfl fun _ => rfl
    cases htd : env.entries[i]? with
    | none =>
      rw [onDanceFinished, htd] at ht
      rw [← Option.some.inj ht]
      refine .of_write rfl fun _ hw => ordered_of_same (fun k => ?_) ⟨hw.magic, (hwaits hw).processed⟩
        (fun hm => (hm.finish hnot).congr rfl rfl rfl) rfl (Board.setRunning_self ..) fun _ _ => ?_
      · exact (heldIssued_append ..).trans (List.append_nil _)
      · exact congrArg DanceState.finished (s.setAction_self _)
    | some td =>
      have hfinish := onDanceFinished_calling hgrows hexec htd (Board.setRunning_self _ _) ht
      have hrest := hbegun.comp hfinish (S := fun s t => Waits i s → Calling env i (danceStep (s.action i))
        (heldKeycode td (danceStep (s.action i)))
        (if heldKeycode td (danceStep (s.action i)) = 0 then [] else [true]) ((s.begun i).setRunning i true) t)
        fun _ hfinishing hw => by
          have hfin := hfinishing (hwaits hw)
          rwa [show ((s.begun i).setRunning i true).action i = _ from s.setAction_self _] at hfin
      exact Unless.within (b := s) (c := t) rfl rfl hrest fun hfinishing hw =>
        ordered_of_finished htd hnot hfalse (hfinishing hw)

omit hexec in
theorem ordered_of_reset {t : Board} (htd : env.entries[i]? = some td)
    (hrunning : s.running i = true → s.danceState i = .none)
    (h : Calling env i .none (heldKeycode td (s.danceState i))
      (if heldKeycode td (s.danceState i) = 0 then [] else [false]) (s.setRunning i true) t) :
    Ordered env i s (clearAction i (t.setRunning i (s.running i))) := by
  have hissued : ∀ k, heldIssued i k (clearAction i (t.setRunning i (s.running i))).log = heldIssued i k s.log ++
    if heldKeycode td (s.danceState i) = k then (if heldKeycode td (s.danceState i) = 0 then [] else [false]) else [] :=
    fun k => (heldIssued_append ..).trans ((List.append_nil _).trans (h.issued k))
  have hmods : ModsKept env i s → ModsKept env i (t.setRunning i (s.running i)) := fun hm =>
    (h.mods (hm.congr rfl rfl rfl)).congr rfl rfl rfl
  refine ⟨h.waits.clear, fun hm => (hmods hm).clear, Board.setRunning_self .., fun hr => ⟨fun k => ?_, ?_, ?_⟩,
    fun _ hinv => ⟨fun k => ?_, ?_, ?_⟩⟩
  · have hzero : heldKeycode td (s.danceState i) = 0 := by rw [hrunning hr]; rfl
    rw [hissued, if_pos hzero, ite_self, List.append_nil]
  · rw [hrunning hr]
    exact h.danceState
  · exact fun hne => absurd (hrunning hr) hne
  · have hbefore := hinv.order k
    have hnow : heldNow env i s = heldKeycode td (s.danceState i) := by rw [heldNow, htd]
    have hnow' : heldNow env i (clearAction i (t.setRunning i (s.running i))) = 0 := by
      rw [heldNow, htd]
      exact congrArg (heldKeycode td) h.danceState
    rw [hnow', hissued, decide_eq_false fun hc => hc.1 hc.2.symm]
    rw [hnow] at hbefore
    by_cases hk : heldKeycode td (s.danceState i) = k
    · by_cases hzero : heldKeycode td (s.danceState i) = 0
      · rw [decide_eq_false fun hc => hc.1 (hk.symm.trans hzero)] at hbefore
        rw [if_pos hk, if_pos hzero, List.append_nil, hbefore]
      · rw [decide_eq_true ⟨fun hc => hzero (hk.trans hc), hk⟩] at hbefore
        rw [if_pos hk, if_neg hzero, play_up hbefore]
    · rw [decide_eq_false fun hc => hk hc.2] at hbefore
      rw [if_neg hk, List.append_nil, hbefore]
  · exact fun hne => absurd h.danceState hne
  · exact fun _ => h.danceState

include hgrows in
theorem processTapDanceActionOnReset_owes : Keeps (Owes env i) (processTapDanceActionOnReset env exec i) := by
  intro s s' h
  obtain ⟨t, ht, rfl⟩ := Option.map_eq_some_iff.mp h
  rw [Board.slipIf] at ht
  by_cases hslip : s.running i = true ∧ s.danceState i ≠ .none
  · rw [if_pos hslip] at ht
    have hgrow := callback_keeps grows_allows id (onDanceReset_keeps grows_allows (fun r _ => hgrows r) id id) ht
    exact unless_of_slip (hgrow.trans (List.prefix_append _ _))
  · rw [if_neg hslip] at ht
    obtain ⟨u, hu, rfl⟩ := Option.map_eq_some_iff.mp ht
    have hnone : s.running i = true → s.danceState i = .none := fun hr => by
      by_contra hne
      exact hslip ⟨hr, hne⟩
    cases htd : env.entries[i]? with
    | none =>
      rw [onDanceReset, htd] at hu
      rw [← Option.some.inj hu]
      have hissued : ∀ k, heldIssued i k (s.log ++ [.reset i (s.mods i)]) = heldIssued i k s.log := fun k =>
        (heldIssued_append ..).trans (List.append_nil _)
      have hwaits : Waits i s → Waits i (s.setRunning i true) := fun hw => ⟨hw.magic, hw.processed⟩
      have hmods : ModsKept env i s → ModsKept env i ((s.setRunning i true).setRunning i (s.running i)) := fun hm =>
        hm.congr rfl rfl rfl
      refine .of_write rfl fun _ hw => ⟨(hwaits hw).clear, fun hm => (hmods hm).clear, Board.setRunning_self ..,
        fun hr => ⟨hissued, rfl, ?_⟩, fun _ hinv => ⟨fun k => ?_, ?_, hinv.entry⟩⟩
      · exact fun hne => absurd (hnone hr) hne
      · exact (congrArg (play false) (hissued k)).trans (hinv.order k)
      · exact fun hne => absurd (hinv.entry htd) hne
    | some td =>
      have hreset := onDanceReset_calling hexec htd (Board.setRunning_self _ _) hu
      have hclear : Unless IsSlip Board.log (fun u v => v = clearAction i (u.setRunning i (s.running i))) u
          (clearAction i (u.setRunning i (s.running i))) := .of_write rfl fun _ => rfl
      refine Unless.within (b := s.setRunning i true) rfl rfl (hreset.comp hclear (S := fun s' _ => Waits i s' →
        Calling env i .none (heldKeycode td (s'.danceState i))
          (if heldKeycode td (s'.danceState i) = 0 then [] else [false]) s' u) fun hcalling _ => hcalling)
        fun hcalling hw => ordered_of_reset htd hnone (hcalling ⟨hw.magic, hw.processed⟩)

include hgrows in
theorem processTapDanceActionOnDanceFinished_owes :
    Keeps (Owes env i) (processTapDanceActionOnDanceFinished env exec i) := by
  intro s s' h
  obtain ⟨t, ht, hts⟩ := Option.bind_eq_some_iff.mp h
  have hfinish : Owes env i s t := by
    split at ht
    · exact of_some ht ((owes_allows env i).refl s)
    case isFalse hnot => exact finishDance_owes hgrows hexec (Bool.eq_false_iff.mpr hnot) ht
  refine hfinish.trans (((owes_allows env i).aside (.inactive t)).trans ?_)
  dsimp only at hts
  split at hts
  · exact of_some hts ((owes_allows env i).refl _)
  · exact processTapDanceActionOnReset_owes hgrows hexec hts

omit hexec in
/-- A tap of a dance. If it has finished, the modifiers that remain on are among those of the tap. -/
theorem ModsKept.tap (h : ModsKept env i s) (hslip : ¬ ((s.action i).finished = true ∧
    (s.mods i).oneshotMods &&& (env.mods s.log).real &&& ~~~(env.mods s.log).oneshot ≠ 0)) (t : DanceState)
    (ht : t.finished = (s.action i).finished) :
    ModsKept env i ((s.setAction i t).setMods i (env.mods s.log).forDance) := by
  have hfinished : (((s.setAction i t).setMods i (env.mods s.log).forDance).action i).finished =
      (s.action i).finished := (congrArg DanceState.finished (s.setAction_self t)).trans ht
  refine ⟨h.finished.trans hfinished.symm, fun b hb => ⟨hfinished.trans (h.real b hb).1, ?_⟩,
    fun b hb => ⟨hfinished.trans (h.weak b hb).1, ?_⟩⟩
  · have hnone := not_not.mp fun hne => hslip ⟨(h.real b hb).1, hne⟩
    have hbit : hasMod ((s.mods i).oneshotMods &&& (env.mods s.log).real &&& ~~~(env.mods s.log).oneshot) b =
        false := by
      rw [hnone]
      exact BitVec.getLsbD_zero
    have hold : hasMod (s.mods i).oneshotMods b = true := (h.real b hb).2
    have hshown : hasMod (env.mods s.log).real b = true := remains_shown hb
    have hlt : b < 8 := BitVec.lt_of_getLsbD hold
    rw [Board.setMods_self, Mods.forDance]
    simp only [hasMod, UInt8.toBitVec_and, UInt8.toBitVec_not, BitVec.getLsbD_and, BitVec.getLsbD_not]
      at hbit hold hshown ⊢
    simpa only [hold, hshown, hlt, decide_true, Bool.true_and, Bool.not_eq_false'] using hbit
  · have hshown : hasMod (env.mods s.log).weak b = true := remains_shown hb
    rw [Board.setMods_self, Mods.forDance]
    simp only [hasMod, UInt8.toBitVec_or, BitVec.getLsbD_or] at hshown ⊢
    rw [hshown, Bool.or_true]

include hgrows in
theorem processTapDanceActionOnEachTap_owes : Keeps (Owes env i) (processTapDanceActionOnEachTap env exec i) := by
  intro s s' h
  have htap : ¬ Source.dance i false = .dance i true := fun hc => by cases hc
  rw [processTapDanceActionOnEachTap, Board.slipIf] at h
  split at h
  case isTrue =>
    have hgrow : Grows (s.write (.slip .replaced)) s' := onDance_keeps (j := i) (s := (Board.setMods
      ((s.write (.slip .replaced)).setAction i _) i _)) grows_allows (fun r _ => hgrows r) id h
    exact unless_of_slip hgrow
  case isFalse hslip =>
    have htapped : Owes env i s ((s.setAction i ((s.action i).setCount ((s.action i).count + 1))).setMods i
        (env.mods s.log).forDance) :=
      .of_same rfl fun hw => ordered_of_log rfl rfl hw (fun hm => hm.tap hslip _ rfl) rfl rfl
        fun hf _ => (congrArg DanceState.finished (s.setAction_self _)).trans hf
    exact htapped.trans (onDance_keeps (owes_allows env i) (call_owes hexec) htap h)

include hgrows in
theorem owes_handles (j : Nat) : Handles (Owes env i) env exec j := by
  by_cases hj : j = i
  · subst hj
    exact ⟨fun s f hf => owes_change s j f hf, processTapDanceActionOnEachTap_owes hgrows hexec,
      processTapDanceActionOnDanceFinished_owes hgrows hexec, processTapDanceActionOnReset_owes hgrows hexec⟩
  · refine (owes_allows env i).handles (call_owes hexec) hj fun held hc => hj ?_
    injection hc

/-! ## The pipeline -/

include hgrows in
theorem processKeycode_owes (keycode : UInt16) (r : KeyRecord) :
    Keeps (Owes env i) (processKeycode env exec keycode r) :=
  processKeycode_keeps (owes_allows env i) (call_owes hexec) (fun hc => by cases hc)
    (fun _ => owes_handles hgrows hexec _)
    (fun _ _ => .of_same rfl fun hw => ordered_of_log rfl rfl hw (fun hm => hm.congr rfl rfl rfl) rfl rfl
      fun hf _ => hf) r

include hgrows in
theorem processRecord_owes {r : KeyRecord} (hr : ¬ r.source = .dance i true) :
    Keeps (Owes env i) (processRecord env exec r) := by
  intro s s' h
  obtain ⟨⟨again, t⟩, ht, hts⟩ := Option.bind_eq_some_iff.mp h
  have hR := owes_allows env i
  have hpre := preprocessTapDance_keeps hR (owes_handles hgrows hexec _) ht
  refine hpre.trans (Owes.trans (hR.aside (.slipIf t (r.source.magic = true ∧
    (if again then getRecordKeycode env r t else getRecordKeycode env r s) ≠ r.keycode) .lost)) ?_)
  have hwrite : ∀ (u : Board) k, Aside (· = .dance i true) (· = i) u (u.write (.processed r k)) := fun u k =>
    .write u hr
  exact Owes.trans (hR.aside (hwrite _ _)) (processKeycode_owes hgrows hexec _ r hts)

/-- What a press that the dance issued changes before it is processed. -/
structure Unmoved (s s' : Board) : Prop where
  log : s'.log = s.log ∨ s'.log = s.log ++ [.weakModsCleared]
  mods : s'.mods = s.mods
  waiting : s'.waiting = s.waiting
  danceState : s'.danceState = s.danceState
  running : s'.running = s.running
  magic : s'.magicKeycodeOverride = s.magicKeycodeOverride
  finished : ∀ j, (s'.action j).finished = (s.action j).finished

omit hexec in
theorem Unmoved.refl (s : Board) : Unmoved s s := ⟨.inl rfl, rfl, rfl, rfl, rfl, rfl, fun _ => rfl⟩

omit hexec in
include hgrows in
theorem preprocessTapDance_unmoved {r : KeyRecord} (hr : r.source.held = true) {keycode : UInt16} {again : Bool}
    (h : preprocessTapDance env exec keycode r s = some (again, s')) : Unless IsSlip Board.log Unmoved s s' := by
  rw [preprocessTapDance] at h
  split_ifs at h
  · cases h
    exact .of_same rfl (.refl s)
  · cases h
    exact .of_same rfl (.refl s)
  · obtain ⟨t, ht, heq⟩ := Option.map_eq_some_iff.mp h
    cases heq
    rw [Board.slipIf] at ht
    by_cases hover : (s.action (qkTapDanceGetIndex s.activeTd)).finished = true ∧
        (s.action (qkTapDanceGetIndex s.activeTd)).pressed = true
    · -- the dance has finished, and its key is down
      rw [if_neg fun hc => hc.2 hover, processTapDanceActionOnDanceFinished, Board.setAction_self,
        DanceState.setInterrupted_finished, if_pos hover.1, Option.bind_some] at ht
      dsimp only at ht
      rw [Board.setAction_self, DanceState.setInterrupted_pressed, if_pos hover.2] at ht
      rw [← Option.some.inj ht]
      refine .of_write rfl fun _ => ⟨.inr rfl, rfl, rfl, rfl, rfl, rfl, fun j => ?_⟩
      show ((s.setAction _ _).action j).finished = _
      by_cases hj : j = qkTapDanceGetIndex s.activeTd
      · rw [hj, Board.setAction_self, DanceState.setInterrupted_finished]
      · rw [Board.setAction_of_ne _ _ hj]
    · rw [if_pos ⟨hr, hover⟩] at ht
      have hgrow : Grows ((s.write (.slip .ended)).setAction _ _) t := (grows_handles hgrows _).finish ht
      exact unless_of_slip (hgrow.trans (List.prefix_append _ _))

include hgrows in
theorem processRecord_held {r : KeyRecord} {rest : List KeyRecord} (hwaiting : s.waiting = r :: rest)
    (hr : r.source = .dance i true) (h : processRecord env exec r (s.setWaiting rest) = some s') :
    Owes env i s s' := by
  obtain ⟨⟨again, t⟩, ht, hts⟩ := Option.bind_eq_some_iff.mp h
  have hmagic : ∀ u, getRecordKeycode env r u = u.magicKeycodeOverride := fun u => by rw [getRecordKeycode, hr]
  have hpre := preprocessTapDance_unmoved hgrows (by rw [hr]; rfl) ht
  dsimp only at hts
  generalize hk : (if again then getRecordKeycode env r t else getRecordKeycode env r (s.setWaiting rest)) = k
    at hts
  rw [Board.slipIf] at hts
  by_cases hlost : r.source.magic = true ∧ k ≠ r.keycode
  · rw [if_pos hlost] at hts
    have hgrow : Grows ((t.write (.slip .lost)).write (.processed r k)) s' :=
      processKeycode_keeps grows_allows (fun r _ => hgrows r) id (fun _ => grows_handles hgrows _)
        (fun _ _ => List.prefix_rfl) r hts
    have hslip : Grows (t.write (.slip .lost)) s' := (List.prefix_append _ _).trans hgrow
    have hrest : Unless IsSlip Board.log (fun _ _ => False) (s.setWaiting rest) s' :=
      hpre.comp (unless_of_slip hslip (R := fun _ _ => False)) fun _ hfalse => hfalse
    exact Unless.within (b := s.setWaiting rest) rfl rfl hrest False.elim
  · have hkeycode : k = r.keycode := by
      by_contra hne
      exact hlost ⟨by rw [hr]; rfl, hne⟩
    rw [if_neg hlost, hkeycode] at hts
    have hwrite : Unless IsSlip Board.log (fun t u => u = t.write (.processed r r.keycode)) t
        (t.write (.processed r r.keycode)) := .of_write rfl fun _ => rfl
    have hrest : Unless IsSlip Board.log (fun _ _ => Unmoved (s.setWaiting rest) t) (s.setWaiting rest)
        (t.write (.processed r r.keycode)) := hpre.comp hwrite fun hun _ => hun
    have hbefore : Owes env i s (t.write (.processed r r.keycode)) := by
      refine Unless.within (b := s.setWaiting rest) rfl rfl hrest fun hun hw => ?_
      have hlog : ∃ new, (t.write (.processed r r.keycode)).log = s.log ++ new ∧ (∀ e ∈ new, ¬ e.Sets i) ∧
          ∀ k', heldIssued i k' new = [] ∧ heldOf i k' new = if r.keycode = k' then [r.pressed] else [] := by
        rcases hun.log with heq | heq
        · refine ⟨[_], congrArg (· ++ [_]) heq, by simp [Event.Sets], fun k' => ⟨rfl, ?_⟩⟩
          by_cases hk' : r.keycode = k' <;> simp [heldOf, hr, hk']
        · refine ⟨[.weakModsCleared, _], (congrArg (· ++ [_]) heq).trans (List.append_assoc ..),
            by simp [Event.Sets], fun k' => ⟨rfl, ?_⟩⟩
          by_cases hk' : r.keycode = k' <;> simp [heldOf, hr, hk']
      obtain ⟨new, hnew, hsets, hheld⟩ := hlog
      have hmem : ∀ x, x ∈ t.waiting → x ∈ s.waiting := fun x hx => by
        rw [hun.waiting] at hx
        exact hwaiting ▸ List.mem_cons_of_mem r hx
      refine ordered_of_same (fun k' => ?_) ⟨fun x hx => hw.magic x (hmem x hx), fun k' => ?_⟩ ?_ ?_ ?_ ?_
      · rw [hnew, heldIssued_append, (hheld k').1, List.append_nil]
      · show _ = _ ++ heldWaiting i k' t.waiting
        rw [hnew, heldIssued_append, heldOf_append, (hheld k').1, (hheld k').2, hun.waiting, hw.processed, hwaiting,
          List.append_nil, List.append_assoc]
        show _ ++ _ = _ ++ (_ ++ heldWaiting i k' rest)
        by_cases hk' : r.keycode = k' <;> simp [heldWaiting, hr, hk']
      · exact fun hm => hm.of_not hsets hnew (hun.finished i) (congrFun hun.mods i)
      · exact congrFun hun.danceState i
      · exact congrFun hun.running i
      · intro hf _
        exact (hun.finished i).trans hf
    exact hbefore.trans (processKeycode_owes hgrows hexec _ r hts)

include hgrows in
theorem passOn_owes (n : Nat) : Keeps (Owes env i) (passOn env exec n) := by
  induction n with
  | zero => exact fun _ _ h => of_some h ((owes_allows env i).refl _)
  | succ n ih =>
    intro s s' h
    rw [passOn] at h
    split at h
    · exact of_some h ((owes_allows env i).refl s)
    case _ r rest hwaiting =>
      obtain ⟨t, ht, hts⟩ := Option.bind_eq_some_iff.mp h
      refine Owes.trans ?_ (ih hts)
      by_cases hr : r.source = .dance i true
      · exact processRecord_held hgrows hexec hwaiting hr ht
      · have htake : Owes env i s (s.setWaiting rest) := by
          refine .of_same rfl fun hw => ordered_of_same (fun _ => rfl) ⟨fun x hx => ?_, fun k => ?_⟩
            (fun hm => hm.congr rfl rfl rfl) rfl rfl fun hf _ => hf
          · exact hw.magic x (hwaiting ▸ List.mem_cons_of_mem r hx)
          · show heldIssued i k s.log = heldOf i k s.log ++ heldWaiting i k rest
            rw [hw.processed, hwaiting]
            simp [heldWaiting, hr]
        exact htake.trans (processRecord_owes hgrows hexec hr ht)

end Calls

section Run

variable {env : DanceEnv} {depth : Nat} {i : Nat} {s s' : Board}

theorem actionExec_owes (depth : Nat) (r : KeyRecord) (s s' : Board) (h : actionExec env depth r s = some s') :
    Owes env i (s.wait r) s' := by
  induction depth generalizing r s s' with
  | zero => cases h
  | succ depth ih => exact passOn_owes (actionExec_grows depth) ih _ h

theorem Step.exec_owes (step : Step) (h : step.exec env depth s = some s') : Owes env i s s' := by
  have hexec : ∀ r s s', actionExec env depth r s = some s' → Owes env i (s.wait r) s' := actionExec_owes depth
  cases step with
  | key pos pressed => exact call_owes hexec ⟨.matrix pos, 0, pressed⟩ (fun hc => by cases hc) h
  | record pos pressed =>
    exact processRecord_owes (actionExec_grows depth) hexec (r := ⟨.matrix pos, 0, pressed⟩) (fun hc => by cases hc) h
  | pass n => exact passOn_owes (actionExec_grows depth) hexec n h
  | task => exact tapDanceTask_keeps (owes_allows env i) (owes_handles (actionExec_grows depth) hexec _) h
  | elapse ms => exact of_some h ((owes_allows env i).aside (.of_same rfl rfl rfl rfl rfl rfl rfl))

theorem run_owes (steps : List Step) : Keeps (Owes env i) (run env depth · steps) :=
  Keeps.foldlM (owes_allows env i).refl (owes_allows env i).trans (f := Step.exec env depth)
    (fun step _ _ => step.exec_owes) steps

theorem initial_inOrder (env : DanceEnv) (i : Nat) : InOrder env i .initial := by
  refine ⟨fun k => ?_, fun hne => absurd rfl hne, fun _ => rfl⟩
  have hnow : heldNow env i .initial = 0 := by
    rw [heldNow]
    split <;> rfl
  rw [hnow, decide_eq_false fun hc => hc.1 hc.2.symm]
  rfl

theorem initial_modsKept (env : DanceEnv) (i : Nat) : ModsKept env i .initial :=
  ⟨rfl, nofun, nofun⟩

theorem InOrder.up (h : InOrder env i s) (hfinished : (s.action i).finished = false) (k : UInt16) :
    play false (heldIssued i k s.log) = some false := by
  have hnone : s.danceState i = .none := by
    by_contra hne
    exact Bool.false_ne_true (hfinished.symm.trans (h.finished hne))
  have hnow : heldNow env i s = 0 := by
    rw [heldNow, hnone]
    split <;> rfl
  rw [h.order k, hnow, decide_eq_false fun hc => hc.1 hc.2.symm]

end Run

/-- What a board does to the modifiers, told from the log. A basic keycode uses up the one-shot ones. -/
def Mods.next (m : Mods) : Event → Mods
  | .finished _ d => { m with real := m.real ||| d.oneshotMods, weak := m.weak ||| d.weakMods }
  | .reset _ d => { m with real := m.real &&& ~~~d.oneshotMods, weak := m.weak &&& ~~~d.weakMods }
  | .weakModsCleared => { m with weak := 0 }
  | .processed r keycode => if r.pressed ∧ keycode ≤ 0xFF then { m with oneshot := 0 } else m
  | _ => m

/-- A dance with an action on a tap, on two keys, and the letter A on any other. A one-shot left Shift is on. -/
def tapDanceOn (onTap : UInt16) : DanceEnv where
  entries := [⟨onTap, 0, 0, 0, 200⟩]
  keymap _ pos _ := if pos < 2 then 0x5700 else 0x04
  mods log := log.foldl Mods.next ⟨0, 0, 2⟩
  passes _ waiting := waiting.length
  macroCalls _ := []

/-- Two keys of the dance: the press of the second replaces the Shift that the release of the first is to take off. -/
example : (run (tapDanceOn 0x05) 3 .initial [.key 0 true, .elapse 201, .task, .key 1 true, .key 0 false,
    .key 1 false]).any (fun s => .slip .replaced ∈ s.log ∧ (tapDanceOn 0x05).mods s.log = ⟨2, 0, 0⟩) = true := by
  decide +kernel

end TapDance
end Keys
end VialQmk
