import VialQmk.Keys.TappingConservation

/-!
# Keys.TappingOrder

The order in which presses reach `process_record`.

* `outcome_order`: a call of `process_tapping` keeps the order of the presses it moves.
* `presses_in_order`: presses are passed on in the order they came in, in every run in which no press
  is processed in front of another that waits in the buffer.
* `press_overtakes`: the loop over the waiting buffer stops behind a tapping key that timed out, and
  the next press is processed before the rest of the buffer.
-/

namespace VialQmk
namespace Keys

variable {σ : Type}

def pressesOf (inputs : List (KeyEvent × Nat)) : List (KeyEvent × Nat) :=
  inputs.filter fun i => i.1.pressed

@[simp]
theorem pressesOf_append (l l' : List (KeyEvent × Nat)) :
    pressesOf (l ++ l') = pressesOf l ++ pressesOf l' := List.filter_append _ _

@[simp]
theorem pressesOf_nil : pressesOf [] = [] := rfl

theorem pressesOf_release {r : Record} (h : r.event.pressed = false) : pressesOf [r.input] = [] := by
  simp [pressesOf, Record.input, h]

theorem pressesOf_releases {l : List Record} (h : ∀ r ∈ l, r.event.pressed = false) :
    pressesOf (l.map Record.input) = [] := by
  refine List.filter_eq_nil_iff.mpr fun i hi => ?_
  obtain ⟨r, hr, rfl⟩ := List.mem_map.mp hi
  simp [Record.input, h r hr]

section Call

variable {E : TapEnv σ} {s s' : TapState σ} {keyp k : Record} {finished : Bool}

/-- A call of `process_tapping` keeps presses in order: the tapping key is in front of the record on its
way. -/
theorem outcome_order (hs : Accounted s) (hk : keyp.event.pressed = true → keyp.tap.count = 0)
    (h : Outcome E s keyp finished k s') :
    pressesOf (passedInputs s'.log ++ s'.tappingKey.heldInputs ++
        if finished then [] else k.flightInputs) =
      pressesOf (passedInputs s.log ++ s.tappingKey.heldInputs ++ keyp.flightInputs) := by
  cases h with
  | tick htick => rw [Record.flightInputs_noEvent htick, if_pos rfl]
  | wait tk hu hevent htap htk => rcases htk with rfl | rfl <;> rfl
  | expire hrel _ =>
    rw [Record.heldInputs_count (hs.released hrel)]
    rfl
  | hold tk env hu htk =>
    have hheld : s.tappingKey.heldInputs = [tk.input] := by
      rcases htk with rfl | rfl <;> exact Record.heldInputs_event hu.1 hu.2.2
    rw [passedInputs_append, hheld, Record.heldInputs_noEvent Record.zero_noEvent, List.append_nil]
    rfl
  | firstTap c env hu hevent htap hup =>
    have hheld : s.tappingKey.heldInputs = [s.tappingKey.input] :=
      Record.heldInputs_event hu.1 hu.2.2
    rw [passedInputs_append, hheld, heldInputs_apply (by exact Nat.one_ne_zero), List.append_nil]
    rfl
  | pass tk c env hevent hpass =>
    rw [passedInputs_append, passes_held hpass, Record.flightInputs_event hevent, if_pos rfl]
    cases hp : keyp.event.pressed with
    | false =>
      simp only [pressesOf_append, pressesOf_release hp, List.append_nil]
      exact congrArg (· ++ _) ((congrArg (_ ++ ·) (pressesOf_release hp)).trans
        (List.append_nil _))
    | true =>
      have hheld : s.tappingKey.heldInputs = [] := by
        cases hpass with
        | idle hidle => exact Record.heldInputs_noEvent hidle
        | untyped _ hup => exact absurd (hp.symm.trans hup) (by decide)
        | settled hset => exact Record.heldInputs_count hset.2.2
        | released hrel => exact Record.heldInputs_count (hs.released hrel)
        | interrupts hrel => exact Record.heldInputs_count (hs.released hrel)
      rw [hheld]
      simp only [List.append_nil]
      rfl
  | tapRelease r tk c env hset hevent htap hup hr htk =>
    have htkheld : tk.heldInputs = [] := by
      rcases htk with rfl | rfl
      · exact heldInputs_apply (by rw [hr]; exact hset.2.2)
      · exact Record.heldInputs_noEvent Record.zero_noEvent
    rw [passedInputs_append, Record.heldInputs_count hset.2.2, htkheld,
      Record.flightInputs_event hevent, hr, if_pos rfl]
    simp only [List.append_nil]
    rfl
  | sequential r count c env hrel hw hevent htap hp hcount hr =>
    have hrheld : (c.apply r).heldInputs = [] := by
      refine heldInputs_apply ?_
      rw [hr]
      exact Nat.ne_of_gt (Nat.lt_trans Nat.one_pos hcount)
    rw [passedInputs_append, Record.heldInputs_count (hs.released hrel), hrheld,
      Record.flightInputs_event hevent, hr, if_pos rfl]
    simp only [List.append_nil]
    rfl
  | restart hrel hw hevent htap hp =>
    rw [Record.heldInputs_count (hs.released hrel), Record.flightInputs_event hevent, if_pos rfl,
      List.append_nil, List.append_nil]
    exact congrArg (fun l => pressesOf (passedInputs s.log ++ l))
      (Record.heldInputs_event hevent (hk hp))
  | start made env hstart hevent hp =>
    rw [passedInputs_append, (starts_quiet hstart).2, List.append_nil, starts_held hs hstart,
      Record.flightInputs_event hevent, if_pos rfl, List.append_nil, List.append_nil]
    exact congrArg (fun l => pressesOf (passedInputs s.log ++ l))
      (Record.heldInputs_event hevent (hk hp))
  | startTap made i c env hstart hevent hp hcount hscan =>
    rw [passedInputs_append, passedInputs_append, (starts_quiet hstart).2, List.append_nil,
      starts_held hs hstart, heldInputs_apply (by exact Nat.one_ne_zero),
      Record.flightInputs_event hevent, if_pos rfl]
    simp only [List.append_nil]
    rfl

theorem keeps_unfinished (h : Outcome E s keyp true k s') (hkeep : KeepsBack E s keyp.event) :
    pressesOf keyp.flightInputs = [] := by
  have hsettled : ¬ s.tappingKey.Settled := by
    rintro hset
    rcases hkeep with hu | ⟨hrel, -⟩
    · exact hset.2.2 hu.2.2
    · exact absurd (hset.2.1.symm.trans hrel.2) (by decide)
  have hidle : ¬ s.tappingKey.IsNoEvent := by
    intro hidle
    rcases hkeep with hu | ⟨hrel, -⟩
    · exact hu.1 hidle
    · exact hrel.1 hidle
  have hwithin : s.tappingKey.Released → ¬ WithinTappingTerm E s keyp.event := by
    intro hrel
    rcases hkeep with hu | ⟨-, hw⟩
    · exact absurd (hu.2.1.symm.trans hrel.2) (by decide)
    · exact hw
  have hstarts : ∀ {made : List LogEntry}, ¬ Starts E s keyp made := by
    intro made hstart
    cases hstart with
    | idle h => exact hidle h
    | settled h => exact hsettled h
    | synthesized h => exact hsettled h
    | released h hw => exact hwithin h hw
  cases h with
  | tick htick => rw [Record.flightInputs_noEvent htick]; rfl
  | pass tk c env hevent hpass =>
    cases hpass with
    | idle h => exact absurd h hidle
    | untyped _ hup => rw [Record.flightInputs_event hevent, pressesOf_release hup]
    | settled h => exact absurd h hsettled
    | released h hw => exact absurd hw (hwithin h)
    | interrupts h hw => exact absurd hw (hwithin h)
  | tapRelease _ _ _ _ hset => exact absurd hset hsettled
  | sequential _ _ _ _ hrel hw => exact absurd hw (hwithin hrel)
  | restart hrel hw => exact absurd hw (hwithin hrel)
  | start _ _ hstart => exact absurd hstart hstarts
  | startTap _ _ _ _ hstart => exact absurd hstart hstarts

end Call

section Run

variable {E : TapEnv σ}

/-- What was passed on, what is held and what is on its way, in this order, came in in this order. -/
def InOrder (s : TapState σ) (flight : List (KeyEvent × Nat)) : Prop :=
  (pressesOf (passedInputs s.log ++ s.heldInputs ++ flight)).Sublist (pressesOf (givenInputs s.log))

variable {s : TapState σ}

theorem inOrder_iff {flight : List (KeyEvent × Nat)} : InOrder s flight ↔
      (pressesOf (passedInputs s.log ++ s.tappingKey.heldInputs) ++
        (pressesOf (s.waitingBuffer.map Record.input) ++ pressesOf flight)).Sublist
          (pressesOf (givenInputs s.log)) := by
  simp only [InOrder, TapState.heldInputs, pressesOf_append, List.append_assoc]

/-- A press came in that was not kept back, while another press was in the buffer. -/
def LogEntry.Overtakes : LogEntry → Prop
  | .given r _ front keeps =>
    keeps = false ∧ r.event.pressed = true ∧ ∃ q ∈ front, q.event.pressed = true
  | _ => False

instance : DecidablePred LogEntry.Overtakes
  | .given .. => inferInstanceAs (Decidable (_ ∧ _ ∧ _))
  | .passed _ | .synthesized _ | .overflow | .reentered => inferInstanceAs (Decidable False)

/-- No press overtook another at its arrival, and no nested call was made while a record was on its
way. -/
def InTurn (l : List LogEntry) : Prop := .reentered ∉ l ∧ ∀ e ∈ l, ¬ e.Overtakes

theorem order_finished {s' : TapState σ} {keyp k : Record} (hs : Accounted s)
    (hk : keyp.event.pressed = true → keyp.tap.count = 0) (ho : InOrder s keyp.flightInputs)
    (hturn : KeepsBack E s keyp.event ∨ pressesOf keyp.flightInputs = [] ∨
      pressesOf (s.waitingBuffer.map Record.input) = []) (h : Outcome E s keyp true k s') : InOrder s' [] := by
  have hout := outcome_order hs hk h
  -- The record on its way does not pass a press that waits.
  have hfree : pressesOf keyp.flightInputs = [] ∨
      pressesOf (s.waitingBuffer.map Record.input) = [] := by
    rcases hturn with hkeep | hfree
    · exact .inl (keeps_unfinished h hkeep)
    · exact hfree
  rw [if_pos rfl, List.append_nil] at hout
  rw [inOrder_iff, outcome_given h, (outcome_buffer h).1, hout, pressesOf_append]
  rw [inOrder_iff] at ho
  rcases hfree with hkeyp | hbuffer
  · rw [hkeyp] at ho ⊢
    simpa only [List.append_nil, pressesOf_nil] using ho
  · rw [hbuffer] at ho ⊢
    simpa only [List.nil_append, List.append_nil, pressesOf_nil] using ho

theorem order_unfinished {s' : TapState σ} {keyp k : Record} (hs : Accounted s)
    (hk : keyp.event.pressed = true → keyp.tap.count = 0) (h : Outcome E s keyp false k s') :
    pressesOf (passedInputs s'.log ++ s'.tappingKey.heldInputs) =
      pressesOf (passedInputs s.log ++ s.tappingKey.heldInputs) := by
  have hout := outcome_order hs hk h
  have hflight : k.flightInputs = keyp.flightInputs := by
    have hk' := outcome_record hk h
    simp only [Record.flightInputs, Record.noEvent_of_input hk'.1, hk'.1]
  rw [if_neg Bool.false_ne_true, hflight, pressesOf_append, pressesOf_append _ keyp.flightInputs]
    at hout
  exact List.append_cancel_right hout

theorem order_given {event : KeyEvent} {keycode : Nat} {e : LogEntry} (ho : InOrder s [])
    (htick : event.type ≠ .tick)
    (he : e = .given (.raw event keycode) s.tappingKey s.waitingBuffer (decide (KeepsBack E s event))) :
    InOrder (s.write e) (Record.raw event keycode).flightInputs := by
  have hgiven := inOrder_iff.mp ho
  have hpassed : passedInputs (s.log ++ [e]) = passedInputs s.log := by
    rw [passedInputs_append, he]
    exact List.append_nil _
  have hgivenlog : givenInputs (s.log ++ [e]) = givenInputs s.log ++ [(Record.raw event keycode).input] := by
    rw [givenInputs_append, he]
    rfl
  have hflight : (Record.raw event keycode).flightInputs = [(Record.raw event keycode).input] :=
    Record.flightInputs_event htick
  rw [hflight, inOrder_iff, TapState.write, hpassed, hgivenlog,
    pressesOf_append (givenInputs _), ← List.append_assoc]
  refine List.Sublist.append ?_ (List.Sublist.refl _)
  rwa [pressesOf_nil, List.append_nil] at hgiven

theorem turn_of_not_overtakes {event : KeyEvent} {keycode : Nat}
    (h : ¬ (LogEntry.given (.raw event keycode) s.tappingKey s.waitingBuffer
      (decide (KeepsBack E s event))).Overtakes) (htick : event.type ≠ .tick) :
    KeepsBack E s event ∨ pressesOf (Record.raw event keycode).flightInputs = [] ∨
      pressesOf (s.waitingBuffer.map Record.input) = [] := by
  have hflight : (Record.raw event keycode).flightInputs = [(Record.raw event keycode).input] :=
    Record.flightInputs_event htick
  rw [hflight]
  by_cases hkeep : KeepsBack E s event
  · exact .inl hkeep
  · right
    cases hp : event.pressed with
    | false => exact .inl (pressesOf_release hp)
    | true =>
      refine .inr (pressesOf_releases fun q hq => ?_)
      refine Bool.eq_false_iff.mpr fun hqp => ?_
      exact h ⟨decide_eq_false hkeep, hp, q, hq, hqp⟩

theorem order_pop {s' : TapState σ} {keyp k : Record} {rest : List Record} (hs : Accounted s) (ho : InOrder s [])
    (hbuffer : s.waitingBuffer = keyp :: rest) (h : Outcome E s keyp true k s') :
    InOrder { s' with waitingBuffer := s'.waitingBuffer.tail } [] := by
  have hout := outcome_order hs (hs.front_press hbuffer) h
  rw [if_pos rfl, List.append_nil, Record.flightInputs_event (hs.events keyp (hbuffer ▸ List.mem_cons_self))] at hout
  rw [InOrder, TapState.heldInputs, hbuffer, List.map_cons, List.append_nil, List.append_cons, ← List.append_assoc,
    ← List.append_assoc, pressesOf_append, ← hout, ← pressesOf_append] at ho
  rw [InOrder, outcome_given h, TapState.heldInputs, (outcome_popped hs hbuffer h).2, List.append_nil,
    ← List.append_assoc]
  exact ho

theorem order_invariant (E : TapEnv σ) :
    TapInvariant E InTurn (fun s => Accounted s ∧ InOrder s [])
      (fun keyp s => Accounted s ∧ (keyp.event.pressed = true → keyp.tap.count = 0) ∧
        InOrder s keyp.flightInputs ∧ (KeepsBack E s keyp.event ∨ pressesOf keyp.flightInputs = [] ∨
          pressesOf (s.waitingBuffer.map Record.input) = []))
      (fun keyp s => Accounted s ∧ (keyp.event.pressed = true → keyp.tap.count = 0) ∧
        InOrder s keyp.flightInputs) where
  clean_of_prefix hpre hc :=
    ⟨fun h => hc.1 (hpre.subset h), fun e he => hc.2 e (hpre.subset he)⟩
  quiet hc := hc.1
  environment env hi := ⟨hi.1.environment env, hi.2⟩
  tick := by
    intro s event keycode hi htick
    have hflight : (Record.raw event keycode).flightInputs = [] := Record.flightInputs_noEvent htick
    rw [hflight]
    exact ⟨hi.1, fun _ => rfl, hi.2, .inr (.inl rfl)⟩
  given := by
    intro s event keycode hi htick e he hc
    have hturn := hc.2 e (List.mem_append_right _ (List.mem_singleton.mpr rfl))
    rw [he] at hturn
    exact ⟨hi.1.write (fun r hr => by cases he.symm.trans hr), fun _ => rfl, order_given hi.2 htick he,
      turn_of_not_overtakes hturn htick⟩
  passedOn := by
    intro s keyp tk hf hevent hpass _
    have hout := Outcome.pass tk .keep s.env hevent hpass
    exact ⟨outcome_accounted hf.1 hf.2.1 hout,
      order_finished hf.1 hf.2.1 hf.2.2.1 hf.2.2.2 hout⟩
  finished := by
    intro s s' keyp k hf h _
    exact ⟨outcome_accounted hf.1 hf.2.1 h, order_finished hf.1 hf.2.1 hf.2.2.1 hf.2.2.2 h⟩
  unfinished := by
    intro s s' keyp k hf h _
    have hk := outcome_record hf.2.1 h
    refine ⟨outcome_accounted hf.1 hf.2.1 h, hk.2, ?_⟩
    have hflight : k.flightInputs = keyp.flightInputs := by
      simp only [Record.flightInputs, Record.noEvent_of_input hk.1, hk.1]
    have hsame := order_unfinished hf.1 hf.2.1 h
    rw [inOrder_iff, outcome_given h, hflight, (outcome_buffer h).1, hsame]
    exact inOrder_iff.mp hf.2.2.1
  dropTick := by
    intro s k hf htick
    have ho := hf.2.2
    rw [Record.flightInputs_noEvent htick] at ho
    exact ⟨hf.1, ho⟩
  enqueue := by
    intro s k hf hevent
    have ho := hf.2.2
    rw [Record.flightInputs_event hevent] at ho
    refine ⟨hf.1.enqueue hevent hf.2.1, ?_⟩
    simpa only [InOrder, TapState.heldInputs, List.map_append, List.map_cons, List.map_nil,
      List.append_assoc, List.append_nil] using ho
  overflow := by
    intro s k env hf _ _
    refine ⟨hf.1.clear env, ?_⟩
    have ho := hf.2.2
    simp only [InOrder, givenInputs_append, passedInputs_append, pressesOf_append] at ho ⊢
    refine List.Sublist.trans ?_ (ho.trans (List.sublist_append_left _ _))
    simp [passedInputs, LogEntry.passedRecord, TapState.heldInputs, pressesOf,
      Record.heldInputs_noEvent Record.zero_noEvent]
  pop := by
    intro s s' keyp k rest hi hbuffer h _
    exact ⟨(outcome_popped hi.1 hbuffer h).1, order_pop hi.1 hi.2 hbuffer h⟩
  put := by
    intro s s' keyp k rest hi hbuffer h _
    have hpress := hi.1.front_press hbuffer
    obtain ⟨hput, -, hset⟩ := outcome_put hi.1 hbuffer h
    refine ⟨hput, ?_⟩
    have hsame : k.input :: rest.map Record.input = s.waitingBuffer.map Record.input := by
      rw [(outcome_record hpress h).1, hbuffer, List.map_cons]
    rw [inOrder_iff, outcome_given h, hset, hsame, order_unfinished hi.1 hpress h]
    exact inOrder_iff.mp hi.2

/-- Presses are passed to `process_record` in the order in which they came in. -/
theorem presses_in_order (E : TapEnv σ) (env : σ) (fuel : Nat) (steps : List (TapStep σ))
    (s : TapState σ) (h : runTapping E fuel (.initial env) steps = some s) (hturn : InTurn s.log) :
    (pressesOf (passedInputs s.log)).Sublist (pressesOf (givenInputs s.log)) := by
  have ho := ((order_invariant E).run fuel steps h hturn
    ⟨Accounted.initial env, List.nil_sublist _⟩).2
  rw [InOrder, List.append_nil, pressesOf_append] at ho
  exact (List.sublist_append_left _ _).trans ho

end Run

/-- `A` and `X` are tap-hold keys. `A` is pressed at 0, `X` at 10, and `Y` at 300, which ends the hold of
`A`. The loop over the buffer then makes `X` the tapping key, finds that its term is over too, and stops
behind that with `Y` in the buffer. `Z`, pressed at 301, is processed before it. -/
theorem press_overtakes :
    ∃ s, runTapping (.plain [1, 2] 200 200) 1 (.initial ())
        [.key 1 0 true, .key 2 10 true, .key 3 300 true, .key 4 301 true] = some s ∧
      ¬ (pressesOf (passedInputs s.log)).Sublist (pressesOf (givenInputs s.log)) ∧
      ∃ front, pressesOf (passedInputs s.log) = front ++
        [(⟨⟨0, 4⟩, 301, .key, true⟩, 0), (⟨⟨0, 3⟩, 300, .key, true⟩, 0)] := by
  obtain ⟨s, hs, hpassed, hgiven⟩ := run_decides
    (fun s => pressesOf (passedInputs s.log) = [(⟨⟨0, 1⟩, 0, .key, true⟩, 0),
        (⟨⟨0, 2⟩, 10, .key, true⟩, 0), (⟨⟨0, 4⟩, 301, .key, true⟩, 0),
        (⟨⟨0, 3⟩, 300, .key, true⟩, 0)] ∧
      pressesOf (givenInputs s.log) = [(⟨⟨0, 1⟩, 0, .key, true⟩, 0),
        (⟨⟨0, 2⟩, 10, .key, true⟩, 0), (⟨⟨0, 3⟩, 300, .key, true⟩, 0),
        (⟨⟨0, 4⟩, 301, .key, true⟩, 0)])
    (by decide +kernel : ((runTapping (.plain [1, 2] 200 200) 1 (.initial ())
      [.key 1 0 true, .key 2 10 true, .key 3 300 true, .key 4 301 true]).any _) = true)
  refine ⟨s, hs, fun hsub => ?_, [_, _], hpassed⟩
  have heq := hsub.eq_of_length (by rw [hpassed, hgiven]; rfl)
  rw [hpassed, hgiven] at heq
  exact absurd heq (by decide)

theorem presses_in_order_plain :
    ∃ s, runTapping (.plain [1, 2] 200 200) 1 (.initial ())
        [.key 1 0 true, .key 2 10 true, .key 3 300 true, .tick 300, .key 4 301 true] = some s ∧
      (pressesOf (passedInputs s.log)).Sublist (pressesOf (givenInputs s.log)) := by
  obtain ⟨s, hs, hturn⟩ := run_decides
    (fun s => .reentered ∉ s.log ∧ ∀ e ∈ s.log, ¬ e.Overtakes)
    (by decide +kernel : ((runTapping (.plain [1, 2] 200 200) 1 (.initial ())
      [.key 1 0 true, .key 2 10 true, .key 3 300 true, .tick 300, .key 4 301 true]).any _) = true)
  exact ⟨s, hs, presses_in_order _ _ _ _ s hs hturn⟩

end Keys
end VialQmk
