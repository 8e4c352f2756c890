import VialQmk.Keys.TappingSteps

/-!
# Keys.TappingConservation

Every event given to `action_tapping_process` is passed to `process_record` once, or is held once: in
the tapping key or in the waiting buffer.

* `outcome_moves`: a call of `process_tapping` moves events between the record on its way, the tapping
  key and `process_record`, and loses none.
* `tapping_conserves`: the balance of a whole run, as long as the buffer does not overflow and
  `process_record` does not call `action_exec` for a record that is still held.
* `dance_repeats_press`: a tap dance that ends in the middle of `process_record` makes such a call, and
  the tapping key is passed on twice.
-/

namespace VialQmk
namespace Keys

variable {σ : Type}

/-- The event of a record, with the keycode of a combo's record. -/
def Record.input (r : Record) : KeyEvent × Nat := (r.event, r.keycode)

def LogEntry.givenRecord : LogEntry → Option Record
  | .given r _ _ _ => some r
  | _ => none

def LogEntry.passedRecord : LogEntry → Option Record
  | .passed r => some r
  | _ => none

def givenInputs (log : List LogEntry) : List (KeyEvent × Nat) :=
  (log.filterMap LogEntry.givenRecord).map Record.input

def passedInputs (log : List LogEntry) : List (KeyEvent × Nat) :=
  (log.filterMap LogEntry.passedRecord).map Record.input

@[simp]
theorem givenInputs_append (l l' : List LogEntry) :
    givenInputs (l ++ l') = givenInputs l ++ givenInputs l' := by simp [givenInputs]

@[simp]
theorem passedInputs_append (l l' : List LogEntry) :
    passedInputs (l ++ l') = passedInputs l ++ passedInputs l' := by simp [passedInputs]

/-- The tapping key holds its event as long as its count is 0. -/
def Record.heldInputs (r : Record) : List (KeyEvent × Nat) :=
  if ¬ r.IsNoEvent ∧ r.tap.count = 0 then [r.input] else []

/-- The event of a record that is on its way through `process_tapping`; a tick is none. -/
def Record.flightInputs (r : Record) : List (KeyEvent × Nat) :=
  if r.IsNoEvent then [] else [r.input]

def TapState.heldInputs (s : TapState σ) : List (KeyEvent × Nat) :=
  s.tappingKey.heldInputs ++ s.waitingBuffer.map Record.input

namespace Record

variable {r : Record}

theorem heldInputs_count (h : r.tap.count ≠ 0) : r.heldInputs = [] :=
  if_neg fun hr => h hr.2

theorem heldInputs_noEvent (h : r.IsNoEvent) : r.heldInputs = [] :=
  if_neg fun hr => hr.1 h

theorem heldInputs_event (h : ¬ r.IsNoEvent) (hc : r.tap.count = 0) : r.heldInputs = [r.input] := if_pos ⟨h, hc⟩

theorem flightInputs_event (h : ¬ r.IsNoEvent) : r.flightInputs = [r.input] := if_neg h

theorem flightInputs_noEvent (h : r.IsNoEvent) : r.flightInputs = [] := if_pos h

theorem noEvent_of_input {r' : Record} (h : r.input = r'.input) : r.IsNoEvent ↔ r'.IsNoEvent := by
  rw [IsNoEvent, IsNoEvent, (Prod.mk.inj h).1]

theorem zero_noEvent : Record.zero.IsNoEvent := rfl

end Record

theorem apply_tap (c : RecordChange) (r : Record) :
    (c.apply r).IsNoEvent ∨ (c.apply r).tap = r.tap := by
  cases c with
  | keep => exact .inr rfl
  | released => exact .inr rfl
  | reset =>
    cases hp : r.event.pressed with
    | true => exact .inr (by simp [RecordChange.apply, hp])
    | false => exact .inl (by simp [RecordChange.apply, hp, Record.zero_noEvent])

theorem apply_pressed {c : RecordChange} {r : Record} (h : (c.apply r).event.pressed = true) :
    c.apply r = r := by
  cases c with
  | keep => rfl
  | released => cases h
  | reset =>
    cases hp : r.event.pressed with
    | true => simp [RecordChange.apply, hp]
    | false =>
      rw [RecordChange.apply, hp] at h
      cases h

theorem heldInputs_apply {c : RecordChange} {r : Record} (h : r.tap.count ≠ 0) :
    (c.apply r).heldInputs = [] := by
  rcases apply_tap c r with hnone | htap
  · exact Record.heldInputs_noEvent hnone
  · exact Record.heldInputs_count (by rwa [htap])

section Call

variable {E : TapEnv σ} {s s' : TapState σ} {keyp k : Record} {finished : Bool}

/-- What is known of a state between calls, next to the balance. -/
structure Accounted (s : TapState σ) : Prop where
  events : ∀ r ∈ s.waitingBuffer, ¬ r.IsNoEvent
  presses : ∀ r ∈ s.waitingBuffer, r.event.pressed = true → r.tap.count = 0
  released : s.tappingKey.Released → s.tappingKey.tap.count ≠ 0
  settled : s.tappingKey.Settled → .passed s.tappingKey ∈ s.log
  /-- A made up release is one of a press that was passed on with a count above 1. -/
  made : ∀ r, .synthesized r ∈ s.log → ∃ p time, .passed p ∈ s.log ∧ p.event.pressed = true ∧
    1 < p.tap.count ∧ r = synthesizedRelease p time

theorem starts_held {made : List LogEntry} (hs : Accounted s) (h : Starts E s keyp made) :
    s.tappingKey.heldInputs = [] := by
  cases h with
  | idle hidle => exact Record.heldInputs_noEvent hidle
  | settled hset _ => exact Record.heldInputs_count hset.2.2
  | synthesized hset _ => exact Record.heldInputs_count hset.2.2
  | released hrel _ _ => exact Record.heldInputs_count (hs.released hrel)

theorem starts_quiet {made : List LogEntry} (h : Starts E s keyp made) :
    givenInputs made = [] ∧ passedInputs made = [] := by
  cases h <;> exact ⟨rfl, rfl⟩

theorem passes_held {tk : Record} (h : Passes E s keyp tk) :
    tk.heldInputs = s.tappingKey.heldInputs := by
  cases h <;> rfl

theorem outcome_moves (hs : Accounted s) (hk : keyp.event.pressed = true → keyp.tap.count = 0)
    (h : Outcome E s keyp finished k s') (x : KeyEvent × Nat) :
    (passedInputs s'.log).count x + s'.tappingKey.heldInputs.count x +
        (if finished then [] else k.flightInputs).count x =
      (passedInputs s.log).count x + s.tappingKey.heldInputs.count x + keyp.flightInputs.count x := by
  cases h with
  | tick htick => rw [Record.flightInputs_noEvent htick, if_pos rfl]
  | wait tk hu hevent htap htk => rcases htk with rfl | rfl <;> rfl
  | expire hrel _ =>
    have hheld : s.tappingKey.heldInputs = [] := Record.heldInputs_count (hs.released hrel)
    rw [hheld]
    rfl
  | hold tk env hu htk =>
    have hheld : s.tappingKey.heldInputs = [tk.input] := by
      rcases htk with rfl | rfl <;> exact Record.heldInputs_event hu.1 hu.2.2
    rw [passedInputs_append, List.count_append, hheld]
    rfl
  | firstTap c env hu hevent htap hup =>
    have hheld : s.tappingKey.heldInputs = [s.tappingKey.input] :=
      Record.heldInputs_event hu.1 hu.2.2
    rw [passedInputs_append, List.count_append, hheld, heldInputs_apply (by exact Nat.one_ne_zero)]
    rfl
  | pass tk c env hevent hpass =>
    have hheld := passes_held hpass
    rw [passedInputs_append, List.count_append, Record.flightInputs_event hevent]
    simp only [hheld, if_true, List.count_nil, Nat.add_zero]
    exact Nat.add_right_comm _ _ _
  | tapRelease r tk c env hset hevent htap hup hr htk =>
    have hheld : s.tappingKey.heldInputs = [] := Record.heldInputs_count hset.2.2
    have htkheld : tk.heldInputs = [] := by
      rcases htk with rfl | rfl
      · exact heldInputs_apply (by rw [hr]; exact hset.2.2)
      · exact Record.heldInputs_noEvent Record.zero_noEvent
    rw [passedInputs_append, List.count_append, hheld, htkheld, Record.flightInputs_event hevent, hr]
    rfl
  | sequential r count c env hrel hw hevent htap hp hcount hr =>
    have hheld : s.tappingKey.heldInputs = [] := Record.heldInputs_count (hs.released hrel)
    have hrheld : (c.apply r).heldInputs = [] := by
      refine heldInputs_apply ?_
      rw [hr]
      exact Nat.ne_of_gt (Nat.lt_trans Nat.one_pos hcount)
    rw [passedInputs_append, List.count_append, hheld, hrheld, Record.flightInputs_event hevent, hr]
    rfl
  | restart hrel hw hevent htap hp =>
    have hheld : s.tappingKey.heldInputs = [] := Record.heldInputs_count (hs.released hrel)
    rw [hheld, Record.flightInputs_event hevent]
    exact congrArg (fun l => (passedInputs s.log).count x + List.count x l)
      (Record.heldInputs_event hevent (hk hp))
  | start made env hstart hevent hp =>
    rw [passedInputs_append, (starts_quiet hstart).2, List.append_nil, starts_held hs hstart,
      Record.flightInputs_event hevent]
    exact congrArg (fun l => (passedInputs s.log).count x + List.count x l)
      (Record.heldInputs_event hevent (hk hp))
  | startTap made i c env hstart hevent hp hcount hscan =>
    rw [passedInputs_append, passedInputs_append, (starts_quiet hstart).2, List.append_nil,
      starts_held hs hstart, heldInputs_apply (by exact Nat.one_ne_zero), List.count_append,
      Record.flightInputs_event hevent]
    rfl

theorem outcome_given (h : Outcome E s keyp finished k s') :
    givenInputs s'.log = givenInputs s.log := by
  cases h with
  | tick _ => rfl
  | wait => rfl
  | expire => rfl
  | restart => rfl
  | start made env hstart => rw [givenInputs_append, (starts_quiet hstart).1, List.append_nil]
  | startTap made i c env hstart =>
    rw [givenInputs_append, givenInputs_append, (starts_quiet hstart).1, List.append_nil]
    exact List.append_nil _
  | _ => exact (givenInputs_append _ _).trans (List.append_nil _)

theorem outcome_buffer (h : Outcome E s keyp finished k s') :
    s'.waitingBuffer.map Record.input = s.waitingBuffer.map Record.input ∧
      ∀ r ∈ s'.waitingBuffer, r ∈ s.waitingBuffer ∨
        (¬ r.IsNoEvent ∧ r.event.pressed = false) := by
  cases h with
  | startTap made i c env hstart hevent hp hcount hscan =>
    obtain ⟨front, q, rest, hbuffer, hmodify, hq, -, hup, -⟩ := scanned_split hscan
    refine ⟨?_, fun r hr => ?_⟩
    · rw [hmodify, hbuffer, List.map_append, List.map_append]
      rfl
    · rw [hmodify] at hr
      rcases List.mem_append.mp hr with hfront | hr
      · exact .inl (hbuffer ▸ List.mem_append_left _ hfront)
      · rcases List.mem_cons.mp hr with rfl | hrest
        · exact .inr ⟨hq, hup⟩
        · exact .inl (hbuffer ▸ List.mem_append_right _ (List.mem_cons_of_mem _ hrest))
  | _ => exact ⟨rfl, fun r hr => .inl hr⟩

theorem outcome_record (hk : keyp.event.pressed = true → keyp.tap.count = 0)
    (h : Outcome E s keyp false k s') :
    k.input = keyp.input ∧ (k.event.pressed = true → k.tap.count = 0) := by
  cases h with
  | firstTap c env hu hevent htap hup =>
    refine ⟨rfl, fun hp => ?_⟩
    rw [hup] at hp
    cases hp
  | _ => exact ⟨rfl, hk⟩

theorem not_settled_zero : ¬ Record.zero.Settled := fun h => h.1 Record.zero_noEvent

theorem not_released_zero : ¬ Record.zero.Released := fun h => h.1 Record.zero_noEvent

theorem apply_settled {c : RecordChange} {r : Record} (h : (c.apply r).Settled) : c.apply r = r :=
  apply_pressed h.2.1

theorem apply_released {c : RecordChange} {r : Record} (hr : r.tap.count ≠ 0)
    (h : (c.apply r).Released) : (c.apply r).tap.count ≠ 0 := by
  rcases apply_tap c r with hnone | htap
  · exact absurd hnone h.1
  · rwa [htap]

theorem outcome_settled (hs : Accounted s) (h : Outcome E s keyp finished k s')
    (hk : keyp.event.pressed = true → keyp.tap.count = 0) :
    (s'.tappingKey.Released → s'.tappingKey.tap.count ≠ 0) ∧
      (s'.tappingKey.Settled → .passed s'.tappingKey ∈ s'.log) := by
  cases h with
  | tick _ => exact ⟨hs.released, hs.settled⟩
  | wait tk hu _ _ htk =>
    refine ⟨fun hrel => ?_, fun hset => ?_⟩
    · rcases htk with rfl | rfl <;> exact absurd (hu.2.1.symm.trans hrel.2) (by decide)
    · rcases htk with rfl | rfl <;> exact absurd hu.2.2 hset.2.2
  | expire | hold =>
    exact ⟨fun h => absurd h not_released_zero, fun h => absurd h not_settled_zero⟩
  | firstTap c env hu _ _ _ =>
    refine ⟨apply_released Nat.one_ne_zero, fun hset => ?_⟩
    rw [apply_settled hset]
    exact List.mem_append_right _ (List.mem_singleton.mpr rfl)
  | pass tk c env hevent hpass =>
    cases hpass with
    | interrupts hrel _ _ _ =>
      refine ⟨fun _ => hs.released hrel, fun hset => ?_⟩
      exact absurd (hrel.2.symm.trans hset.2.1) (by decide)
    | _ => exact ⟨hs.released, fun hset => List.mem_append_left _ (hs.settled hset)⟩
  | tapRelease r tk c env hset hevent htap hup hr htk =>
    rcases htk with rfl | rfl
    · refine ⟨apply_released (by rw [hr]; exact hset.2.2), fun hset' => ?_⟩
      rw [apply_settled hset']
      exact List.mem_append_right _ (List.mem_singleton.mpr rfl)
    · exact ⟨fun h => absurd h not_released_zero, fun h => absurd h not_settled_zero⟩
  | sequential r count c env hrel hw hevent htap hp hcount hr =>
    refine ⟨apply_released (by rw [hr]; exact Nat.ne_of_gt (Nat.lt_trans Nat.one_pos hcount)),
      fun hset => ?_⟩
    rw [apply_settled hset]
    exact List.mem_append_right _ (List.mem_singleton.mpr rfl)
  | restart _ _ _ _ hp | start _ _ _ _ hp =>
    exact ⟨fun hrel => absurd (hp.symm.trans hrel.2) (by decide),
      fun hset => absurd (hk hp) hset.2.2⟩
  | startTap made i c env hstart hevent hp hcount hscan =>
    refine ⟨apply_released Nat.one_ne_zero, fun hset => ?_⟩
    rw [apply_settled hset]
    exact List.mem_append_right _ (List.mem_singleton.mpr rfl)

theorem outcome_made (hs : Accounted s) (h : Outcome E s keyp finished k s') :
    ∀ r, .synthesized r ∈ s'.log → ∃ p time, .passed p ∈ s'.log ∧ p.event.pressed = true ∧
      1 < p.tap.count ∧ r = synthesizedRelease p time := by
  have hold : ∀ {l : List LogEntry} r, .synthesized r ∈ s.log →
      ∃ p time, .passed p ∈ s.log ++ l ∧ p.event.pressed = true ∧ 1 < p.tap.count ∧
        r = synthesizedRelease p time := by
    intro l r hr
    obtain ⟨p, time, hp, hrest⟩ := hs.made r hr
    exact ⟨p, time, List.mem_append_left _ hp, hrest⟩
  have hmade : ∀ {made : List LogEntry} r, Starts E s keyp made → .synthesized r ∈ s.log ++ made →
      ∃ p time, .passed p ∈ s.log ∧ p.event.pressed = true ∧ 1 < p.tap.count ∧
        r = synthesizedRelease p time := by
    intro made r hstart hr
    rcases List.mem_append.mp hr with hr | hr
    · exact hs.made r hr
    · cases hstart with
      | synthesized hset hcount =>
        cases List.mem_singleton.mp hr
        exact ⟨s.tappingKey, _, hs.settled hset, hset.2.1, hcount, rfl⟩
      | _ => cases hr
  intro r hr
  cases h with
  | tick _ => exact hs.made r hr
  | wait | expire | restart => exact hs.made r hr
  | start made env hstart =>
    obtain ⟨p, time, hp, hrest⟩ := hmade r hstart hr
    exact ⟨p, time, List.mem_append_left _ hp, hrest⟩
  | startTap made i c env hstart =>
    rcases List.mem_append.mp hr with hr | hr
    · obtain ⟨p, time, hp, hrest⟩ := hmade r hstart hr
      exact ⟨p, time, List.mem_append_left _ (List.mem_append_left _ hp), hrest⟩
    · cases List.mem_singleton.mp hr
  | _ =>
    rcases List.mem_append.mp hr with hr | hr
    · exact hold r hr
    · cases List.mem_singleton.mp hr

theorem outcome_accounted (hs : Accounted s) (hk : keyp.event.pressed = true → keyp.tap.count = 0)
    (h : Outcome E s keyp finished k s') : Accounted s' where
  events r hr := ((outcome_buffer h).2 r hr).elim (hs.events r) And.left
  presses r hr hp := by
    rcases (outcome_buffer h).2 r hr with hmem | hup
    · exact hs.presses r hmem hp
    · exact absurd (hp.symm.trans hup.2) (by decide)
  released := (outcome_settled hs h hk).1
  settled := (outcome_settled hs h hk).2
  made := outcome_made hs h

namespace Accounted

theorem environment (hs : Accounted s) (env : σ) : Accounted { s with env := env } :=
  ⟨hs.events, hs.presses, hs.released, hs.settled, hs.made⟩

theorem write (hs : Accounted s) {e : LogEntry} (he : ∀ r, e ≠ .synthesized r) :
    Accounted (s.write e) where
  events := hs.events
  presses := hs.presses
  released := hs.released
  settled hset := List.mem_append_left _ (hs.settled hset)
  made r hr := by
    rcases List.mem_append.mp hr with hr | hr
    · obtain ⟨p, time, hp, hrest⟩ := hs.made r hr
      exact ⟨p, time, List.mem_append_left _ hp, hrest⟩
    · exact absurd (List.mem_singleton.mp hr).symm (he r)

theorem enqueue (hs : Accounted s) (hevent : ¬ k.IsNoEvent)
    (hk : k.event.pressed = true → k.tap.count = 0) :
    Accounted { s with waitingBuffer := s.waitingBuffer ++ [k] } where
  events r hr := by
    rcases List.mem_append.mp hr with hr | hr
    · exact hs.events r hr
    · rwa [List.mem_singleton.mp hr]
  presses r hr := by
    rcases List.mem_append.mp hr with hr | hr
    · exact hs.presses r hr
    · rwa [List.mem_singleton.mp hr]
  released := hs.released
  settled := hs.settled
  made := hs.made

theorem pop (hs : Accounted s) : Accounted { s with waitingBuffer := s.waitingBuffer.tail } where
  events r hr := hs.events r (List.mem_of_mem_tail hr)
  presses r hr := hs.presses r (List.mem_of_mem_tail hr)
  released := hs.released
  settled := hs.settled
  made := hs.made

theorem put (hs : Accounted s) (hevent : ¬ k.IsNoEvent)
    (hk : k.event.pressed = true → k.tap.count = 0) :
    Accounted { s with waitingBuffer := s.waitingBuffer.set 0 k } where
  events r hr := by
    rcases List.mem_or_eq_of_mem_set hr with hr | rfl
    · exact hs.events r hr
    · exact hevent
  presses r hr := by
    rcases List.mem_or_eq_of_mem_set hr with hr | rfl
    · exact hs.presses r hr
    · exact hk
  released := hs.released
  settled := hs.settled
  made := hs.made

theorem clear (hs : Accounted s) (env : σ) :
    Accounted (⟨.zero, [], env, s.log ++ [.overflow]⟩ : TapState σ) where
  events _ hr := absurd hr List.not_mem_nil
  presses _ hr := absurd hr List.not_mem_nil
  released h := absurd h not_released_zero
  settled h := absurd h not_settled_zero
  made := (hs.write (e := .overflow) (fun _ h => nomatch h)).made

theorem initial (env : σ) : Accounted (TapState.initial env) where
  events _ hr := absurd hr List.not_mem_nil
  presses _ hr := absurd hr List.not_mem_nil
  released h := absurd h not_released_zero
  settled h := absurd h not_settled_zero
  made _ hr := absurd hr List.not_mem_nil

theorem front_press {rest : List Record} (hs : Accounted s) (hbuffer : s.waitingBuffer = keyp :: rest) :
    keyp.event.pressed = true → keyp.tap.count = 0 := hs.presses keyp (hbuffer ▸ List.mem_cons_self)

end Accounted

theorem outcome_popped {rest : List Record} (hs : Accounted s)
    (hbuffer : s.waitingBuffer = keyp :: rest) (h : Outcome E s keyp true k s') :
    Accounted { s' with waitingBuffer := s'.waitingBuffer.tail } ∧
      s'.waitingBuffer.tail.map Record.input = rest.map Record.input := by
  refine ⟨(outcome_accounted hs (hs.front_press hbuffer) h).pop, ?_⟩
  rw [List.map_tail, (outcome_buffer h).1, hbuffer]
  rfl

theorem outcome_put {rest : List Record} (hs : Accounted s)
    (hbuffer : s.waitingBuffer = keyp :: rest) (h : Outcome E s keyp false k s') :
    Accounted { s' with waitingBuffer := s'.waitingBuffer.set 0 k } ∧ ¬ k.IsNoEvent ∧
      (s'.waitingBuffer.set 0 k).map Record.input = k.input :: rest.map Record.input := by
  have hpress := hs.front_press hbuffer
  have hk := outcome_record hpress h
  have hkevent : ¬ k.IsNoEvent := by
    rw [Record.noEvent_of_input hk.1]
    exact hs.events keyp (hbuffer ▸ List.mem_cons_self)
  refine ⟨(outcome_accounted hs hpress h).put hkevent hk.2, hkevent, ?_⟩
  rw [List.map_set, (outcome_buffer h).1, hbuffer]
  rfl

end Call

def Balanced (s : TapState σ) (flight : List (KeyEvent × Nat)) : Prop :=
  ∀ x, (givenInputs s.log).count x =
    (passedInputs s.log).count x + s.tappingKey.heldInputs.count x + flight.count x +
      (s.waitingBuffer.map Record.input).count x

/-- No overflow, and no nested call while a record is on its way. -/
def Undisturbed (l : List LogEntry) : Prop := .reentered ∉ l ∧ .overflow ∉ l

section Run

variable {E : TapEnv σ} {s s' : TapState σ} {keyp k : Record} {finished : Bool}

theorem outcome_balanced (hs : Accounted s) (hk : keyp.event.pressed = true → keyp.tap.count = 0)
    (hb : Balanced s keyp.flightInputs) (h : Outcome E s keyp finished k s') :
    Balanced s' (if finished then [] else k.flightInputs) := by
  intro x
  have hmoves := outcome_moves hs hk h x
  have hgiven := hb x
  rw [outcome_given h, (outcome_buffer h).1]
  omega

theorem Balanced.front {rest : List Record} (hs : Accounted s) (hb : Balanced s [])
    (hbuffer : s.waitingBuffer = keyp :: rest) (x : KeyEvent × Nat) :
    (givenInputs s.log).count x =
      (passedInputs s.log).count x + s.tappingKey.heldInputs.count x +
        keyp.flightInputs.count x + (rest.map Record.input).count x := by
  have hevent : ¬ keyp.IsNoEvent := hs.events keyp (hbuffer ▸ List.mem_cons_self)
  have hgiven := hb x
  rw [hbuffer, List.map_cons, List.count_cons, List.count_nil] at hgiven
  rw [Record.flightInputs_event hevent, List.count_singleton]
  omega

theorem tapping_invariant (E : TapEnv σ) :
    TapInvariant E Undisturbed (fun s => Accounted s ∧ Balanced s [])
      (fun keyp s => Accounted s ∧ (keyp.event.pressed = true → keyp.tap.count = 0) ∧
        Balanced s keyp.flightInputs)
      (fun keyp s => Accounted s ∧ (keyp.event.pressed = true → keyp.tap.count = 0) ∧
        Balanced s keyp.flightInputs) where
  clean_of_prefix hpre hc := ⟨fun h => hc.1 (hpre.subset h), fun h => hc.2 (hpre.subset h)⟩
  quiet hc := hc.1
  environment env hi := ⟨hi.1.environment env, hi.2⟩
  tick := by
    intro s event keycode hi htick
    refine ⟨hi.1, fun _ => rfl, ?_⟩
    rw [Record.flightInputs_noEvent (show (Record.raw event keycode).IsNoEvent from htick)]
    exact hi.2
  given := by
    intro s event keycode hi htick e he _
    refine ⟨hi.1.write (fun r hr => by cases he.symm.trans hr), fun _ => rfl, fun x => ?_⟩
    have hgiven := hi.2 x
    rw [List.count_nil] at hgiven
    rw [Record.flightInputs_event (show ¬ (Record.raw event keycode).IsNoEvent from htick), he]
    simp only [TapState.write, givenInputs_append, passedInputs_append, List.count_append]
    simp only [givenInputs, passedInputs, List.filterMap_cons, List.filterMap_nil,
      LogEntry.givenRecord, LogEntry.passedRecord, List.map_cons, List.map_nil,
      List.count_nil] at hgiven ⊢
    omega
  passedOn := by
    intro s keyp tk hf hevent hpass _
    have hout := Outcome.pass tk .keep s.env hevent hpass
    refine ⟨outcome_accounted hf.1 hf.2.1 hout, ?_⟩
    exact outcome_balanced hf.1 hf.2.1 hf.2.2 hout
  finished := by
    intro s s' keyp k hf h _
    exact ⟨outcome_accounted hf.1 hf.2.1 h, outcome_balanced hf.1 hf.2.1 hf.2.2 h⟩
  unfinished := by
    intro s s' keyp k hf h _
    exact ⟨outcome_accounted hf.1 hf.2.1 h, (outcome_record hf.2.1 h).2,
      outcome_balanced hf.1 hf.2.1 hf.2.2 h⟩
  dropTick := by
    intro s k hf htick
    have hb := hf.2.2
    rw [Record.flightInputs_noEvent htick] at hb
    exact ⟨hf.1, hb⟩
  enqueue := by
    intro s k hf hevent
    refine ⟨hf.1.enqueue hevent hf.2.1, fun x => ?_⟩
    have hgiven := hf.2.2 x
    rw [Record.flightInputs_event hevent] at hgiven
    simp only [List.map_append, List.map_cons, List.map_nil, List.count_append, List.count_nil]
    omega
  overflow := by
    intro s k env _ _ hc
    exact absurd (List.mem_append_right _ (List.mem_singleton.mpr rfl)) hc.2
  pop := by
    intro s s' keyp k rest hi hbuffer h _
    obtain ⟨hpopped, hrest⟩ := outcome_popped hi.1 hbuffer h
    refine ⟨hpopped, fun x => ?_⟩
    have hfront := Balanced.front hi.1 hi.2 hbuffer x
    have hmoves := outcome_moves hi.1 (hi.1.front_press hbuffer) h x
    rw [if_pos rfl] at hmoves
    rw [outcome_given h]
    simp only [hrest]
    omega
  put := by
    intro s s' keyp k rest hi hbuffer h _
    obtain ⟨hput, hkevent, hset⟩ := outcome_put hi.1 hbuffer h
    refine ⟨hput, fun x => ?_⟩
    have hfront := Balanced.front hi.1 hi.2 hbuffer x
    have hmoves := outcome_moves hi.1 (hi.1.front_press hbuffer) h x
    rw [if_neg Bool.false_ne_true, Record.flightInputs_event hkevent, List.count_singleton]
      at hmoves
    rw [outcome_given h]
    simp only [hset, List.count_cons, List.count_nil]
    omega

/-- Every event given to `action_tapping_process` is passed to `process_record` once or held once, and
what else is passed there are releases made up for presses with a count above 1. -/
theorem tapping_conserves (E : TapEnv σ) (env : σ) (fuel : Nat) (steps : List (TapStep σ))
    (s : TapState σ) (h : runTapping E fuel (.initial env) steps = some s)
    (hoverflow : .overflow ∉ s.log) (hquiet : .reentered ∉ s.log) :
    (givenInputs s.log).Perm (passedInputs s.log ++ s.heldInputs) ∧
      ∀ r, .synthesized r ∈ s.log → ∃ p time, .passed p ∈ s.log ∧ p.event.pressed = true ∧
        1 < p.tap.count ∧ r = synthesizedRelease p time := by
  obtain ⟨hs, hb⟩ := (tapping_invariant E).run fuel steps h ⟨hquiet, hoverflow⟩
    ⟨Accounted.initial env, fun x => rfl⟩
  refine ⟨List.perm_iff_count.mpr fun x => ?_, hs.made⟩
  have hgiven := hb x
  rw [List.count_nil] at hgiven
  rw [TapState.heldInputs, List.count_append, List.count_append]
  omega

theorem tapping_conserves_plain : ∃ s,
    runTapping (.plain [1] 200 200) 1 (.initial ()) [.key 1 100 true, .key 2 150 true, .tick 200] =
      some s ∧
    ((givenInputs s.log).Perm (passedInputs s.log ++ s.heldInputs) ∧
      ∀ r, .synthesized r ∈ s.log → ∃ p time, .passed p ∈ s.log ∧ p.event.pressed = true ∧
        1 < p.tap.count ∧ r = synthesizedRelease p time) := by
  obtain ⟨s, hs, hoverflow, hquiet⟩ := run_decides
    (fun s => .overflow ∉ s.log ∧ .reentered ∉ s.log)
    (by decide +kernel : ((runTapping (.plain [1] 200 200) 1 (.initial ())
      [.key 1 100 true, .key 2 150 true, .tick 200]).any _) = true)
  exact ⟨s, hs, tapping_conserves _ _ _ _ s hs hoverflow hquiet⟩

end Run

/-- A board with a tap dance at column 0 and a tap-hold key at column 1. The dance waits (`active`) for
its next tap, has run `on_dance_finished` (`finished`), and holds the keycode of its tap (`down`), which
is above `QK_MODS_MAX`, so that it goes through `action_exec` at the magic position. -/
structure Dance where
  active : Bool
  finished : Bool
  down : Bool
  deriving DecidableEq

namespace Dance

def idle : Dance := ⟨false, false, false⟩

def magicEvent (time : UInt16) (pressed : Bool) : KeyEvent :=
  ⟨⟨vialMatrixMagic, vialMatrixMagic⟩, time, .key, pressed⟩

def onReset (time : UInt16) (s : Dance) : Proc Dance :=
  if s.down then .exec (magicEvent time false) 0 { s with down := false } fun _ => .done .keep idle
  else .done .keep idle

def preprocess (time : UInt16) (s : Dance) : Proc Dance :=
  if s.finished then onReset time { s with active := false }
  else
    .exec (magicEvent time true) 0 { s with finished := true, down := true } fun s =>
      onReset time { s with active := false }

def processRecord (now : UInt16) (r : Record) (s : Dance) : Proc Dance :=
  if r.event.key = ⟨0, 0⟩ then .done .keep (if r.event.pressed then { s with active := true } else s)
  else if r.event.pressed ∧ s.active then preprocess now s
  else .done .keep s

def env (now : UInt16) : TapEnv Dance where
  isTapRecord _ r := r.event.key = ⟨0, 1⟩
  tappingTerm _ _ := 200
  quickTapTerm _ _ := 200
  permissiveHold _ _ := false
  holdOnOtherKeyPress _ _ := false
  layerSwitchGetAction _ _ := 0
  processRecordTapHint s _ := s
  processRecord := processRecord now
  clearKeyboard s := s

/-- The dance is tapped, and the tap-hold key is held until its term is over. -/
def steps : List (TapStep Dance) :=
  [.key 0 0 true, .key 0 50 false, .key 1 100 true, .tick 310]

end Dance

/-- The tap-hold key times out, and its `process_record` ends the tap dance. The calls of `action_exec`
this makes find the tapping key in place and pass it to `process_record` again, each time. -/
theorem dance_repeats_press :
    ∃ s, runTapping (Dance.env 310) 3 (.initial .idle) Dance.steps = some s ∧
      .overflow ∉ s.log ∧ ¬ (givenInputs s.log).Perm (passedInputs s.log ++ s.heldInputs) := by
  obtain ⟨s, hs, hoverflow, hgiven, hpassed⟩ := run_decides
    (fun s => .overflow ∉ s.log ∧
      (givenInputs s.log).count (⟨⟨0, 1⟩, 100, .key, true⟩, 0) = 1 ∧
      (passedInputs s.log).count (⟨⟨0, 1⟩, 100, .key, true⟩, 0) = 3)
    (by decide +kernel :
      ((runTapping (Dance.env 310) 3 (.initial .idle) Dance.steps).any _) = true)
  refine ⟨s, hs, hoverflow, fun hperm => ?_⟩
  have hcount := hperm.count_eq (⟨⟨0, 1⟩, 100, .key, true⟩, 0)
  rw [List.count_append, hgiven, hpassed] at hcount
  omega

end Keys
end VialQmk
