import VialQmk.Keys.TapDanceFrame

/-!
# Keys.TapDanceCount

What a dance types whose only action is a basic keycode on a tap: one press and release for every tap.

* `Taps`, `TapsThenEnds`: taps within the tapping term, and the two ways in which they end.
* `taps_typed`: the number typed. The count is a byte, and the tap that takes it back to 0 types nothing.
* `taps_type`: so it is one for every tap up to 255 of them.
-/

namespace VialQmk
namespace Keys
namespace TapDance

open Eeprom Lib

/-! ## What a dance has typed -/

def Source.isOf (i : Nat) : Source → Bool
  | .matrix _ | .macroPlay => false
  | .dance j _ => j == i

/-- What was processed of the presses and releases that callbacks of the dance issued. -/
def typed (i : Nat) (log : List Event) : List (UInt16 × Bool) :=
  log.filterMap fun
    | .processed r keycode => if r.source.isOf i then some (keycode, r.pressed) else none
    | _ => none

def pairs (keycode : UInt16) : Nat → List (UInt16 × Bool)
  | 0 => []
  | n + 1 => (keycode, true) :: (keycode, false) :: pairs keycode n

theorem pairs_add (keycode : UInt16) (m n : Nat) : pairs keycode (m + n) = pairs keycode m ++ pairs keycode n := by
  induction m with
  | zero => rw [Nat.zero_add]; rfl
  | succ m ih => rw [Nat.succ_add, pairs, ih]; rfl

theorem length_pairs (keycode : UInt16) (n : Nat) : (pairs keycode n).length = 2 * n := by
  induction n with
  | zero => rfl
  | succ n ih => rw [pairs, List.length_cons, List.length_cons, ih]; rfl

theorem pairs_inj {keycode : UInt16} {m n : Nat} (h : pairs keycode m = pairs keycode n) : m = n := by
  have hlen := congrArg List.length h
  rw [length_pairs, length_pairs] at hlen
  omega

theorem typed_append (i : Nat) (l l' : List Event) : typed i (l ++ l') = typed i l ++ typed i l' :=
  List.filterMap_append

theorem typed_of_not {i : Nat} {new : List Event} (h : ∀ e ∈ new, ¬ e.Of (·.isOf i = true) (· = i)) :
    typed i new = [] := by
  refine List.filterMap_eq_nil_iff.mpr fun e he => ?_
  cases e with
  | processed r keycode => exact if_neg (h _ he)
  | _ => rfl

/-! ## Records and steps that do not concern the dance -/

def Event.KeyOf (keycode : UInt16) : Event → Prop
  | .processed _ k => k = keycode
  | _ => False

/-- The dance of the keycode is not active, and nothing that it issued waits. -/
structure Away (keycode : UInt16) (s : Board) : Prop where
  active : s.activeTd = 0 ∨ IsTapDance s.activeTd
  other : s.activeTd ≠ keycode
  waiting : ∀ r ∈ s.waiting, r.source.isOf (qkTapDanceGetIndex keycode) = false

/-- While no record of its keycode is processed, a dance that is away stays as it is. -/
structure Left (keycode : UInt16) (s s' : Board) : Prop where
  away : Away keycode s'
  action : s'.action (qkTapDanceGetIndex keycode) = s.action (qkTapDanceGetIndex keycode)
  danceState : s'.danceState (qkTapDanceGetIndex keycode) = s.danceState (qkTapDanceGetIndex keycode)
  typed : typed (qkTapDanceGetIndex keycode) s'.log = typed (qkTapDanceGetIndex keycode) s.log

abbrev LeavesDance (keycode : UInt16) : Board → Board → Prop :=
  Unless (Event.KeyOf keycode) Board.log fun s s' => Away keycode s → Left keycode s s'

section Frame

variable {keycode : UInt16}

theorem Left.refl {s : Board} (h : Away keycode s) : Left keycode s s := ⟨h, rfl, rfl, rfl⟩

theorem Left.trans {s₁ s₂ s₃ : Board} (h : Left keycode s₁ s₂) (h' : Left keycode s₂ s₃) : Left keycode s₁ s₃ :=
  ⟨h'.away, h'.action.trans h.action, h'.danceState.trans h.danceState, h'.typed.trans h.typed⟩

theorem LeavesDance.trans {s₁ s₂ s₃ : Board} (h : LeavesDance keycode s₁ s₂) (h' : LeavesDance keycode s₂ s₃) :
    LeavesDance keycode s₁ s₃ :=
  Unless.trans (fun hab hbc ha => (hab ha).trans (hbc (hab ha).away)) h h'

theorem leavesDance_allows (hkey : IsTapDance keycode) :
    Allows (·.isOf (qkTapDanceGetIndex keycode) = true) (· = qkTapDanceGetIndex keycode) (LeavesDance keycode) where
  refl _ := .of_same rfl .refl
  trans h h' := h.trans h'
  aside {s s'} h := by
    obtain ⟨new, hlog, hnew⟩ := h.log
    refine ⟨new, hlog, fun _ ha => ⟨⟨?_, ?_, ?_⟩, h.action _ rfl, h.danceState _ rfl, ?_⟩⟩
    · exact h.active.elim (fun heq => heq ▸ ha.active) .inl
    · rcases h.active with heq | heq
      · exact heq ▸ ha.other
      · rw [heq]
        rintro rfl
        exact absurd hkey (by decide)
    · exact h.waiting ▸ ha.waiting
    · rw [hlog, typed_append, typed_of_not hnew, List.append_nil]

theorem LeavesDance.of_grows {s s' : Board} (h : Grows s s') (hn : ¬ Away keycode s) : LeavesDance keycode s s' := by
  obtain ⟨new, hlog⟩ := h
  exact ⟨new, hlog.symm, fun _ ha => absurd ha hn⟩

variable {env : DanceEnv} {exec : Exec} {s s' : Board}

theorem Away.index_ne (h : Away keycode s) (hkey : IsTapDance keycode) (hactive : s.activeTd ≠ 0) :
    qkTapDanceGetIndex s.activeTd ≠ qkTapDanceGetIndex keycode := fun heq =>
  h.other (eq_of_qkTapDanceGetIndex (h.active.resolve_left hactive) hkey heq)

theorem not_isOf_dance {i j : Nat} (h : j ≠ i) (held : Bool) : ¬ (Source.dance j held).isOf i = true := fun heq =>
  h (eq_of_beq heq)

section Calls

variable (hkey : IsTapDance keycode) (hgrows : ∀ r, Keeps Grows (exec r))
  (hexec : ∀ r : KeyRecord, ¬ r.source.isOf (qkTapDanceGetIndex keycode) = true → Keeps (LeavesDance keycode) (exec r))

include hkey hgrows hexec

theorem preprocessTapDance_leaves {k : UInt16} {r : KeyRecord} {again : Bool}
    (h : preprocessTapDance env exec k r s = some (again, s')) : LeavesDance keycode s s' := by
  by_cases ha : Away keycode s
  · by_cases hactive : s.activeTd = 0
    · simp only [preprocessTapDance, hactive, true_or, if_true, ite_self, Option.some.injEq, Prod.mk.injEq] at h
      rw [← h.2]
      exact (leavesDance_allows hkey).refl s
    · have hne := ha.index_ne hkey hactive
      have hR := leavesDance_allows hkey
      exact preprocessTapDance_keeps hR (hR.handles hexec hne (not_isOf_dance hne)) h
  · exact .of_grows (preprocessTapDance_keeps grows_allows (grows_handles hgrows _) h) ha

theorem processKeycode_leaves {r : KeyRecord} (hr : ¬ r.source.isOf (qkTapDanceGetIndex keycode) = true) {k : UInt16}
    {t : Board} (h : processKeycode env exec k r ((t.slipIf (r.source.magic = true ∧ k ≠ r.keycode) .lost).write
      (.processed r k)) = some s') : LeavesDance keycode t s' := by
  have hR := leavesDance_allows hkey
  refine LeavesDance.trans (hR.aside (.slipIf t (r.source.magic = true ∧ k ≠ r.keycode) .lost)) ?_
  generalize t.slipIf (r.source.magic = true ∧ k ≠ r.keycode) .lost = u at h ⊢
  by_cases hk : k = keycode
  · -- a record of the keycode is processed, so nothing more is owed
    have hgrow := processKeycode_keeps grows_allows (fun r _ => hgrows r) id (fun _ => grows_handles hgrows _)
      (fun _ _ => List.prefix_rfl) r h
    obtain ⟨new, hlog⟩ := hgrow
    refine ⟨.processed r k :: new, by rw [← hlog, Board.write, List.append_assoc]; rfl, fun hnew => ?_⟩
    exact absurd hk (hnew _ List.mem_cons_self)
  · have hwrite : Aside (·.isOf (qkTapDanceGetIndex keycode) = true) (· = qkTapDanceGetIndex keycode) u
        (u.write (.processed r k)) := .write u hr
    refine LeavesDance.trans (hR.aside hwrite) ?_
    have hne : IsTapDance k → qkTapDanceGetIndex k ≠ qkTapDanceGetIndex keycode := fun htd heq =>
      hk (eq_of_qkTapDanceGetIndex htd hkey heq)
    refine processKeycode_keeps hR hexec (fun h => nomatch h)
      (fun htd => hR.handles hexec (hne htd) (not_isOf_dance (hne htd))) ?_ r h
    intro htd w
    exact .of_same rfl fun ha => ⟨⟨.inr htd, hk, ha.waiting⟩, rfl, rfl, rfl⟩

theorem processRecord_leaves (r : KeyRecord) (hr : ¬ r.source.isOf (qkTapDanceGetIndex keycode) = true) :
    Keeps (LeavesDance keycode) (processRecord env exec r) := by
  intro s s' h
  obtain ⟨⟨again, t⟩, ht, hts⟩ := Option.bind_eq_some_iff.mp h
  exact (preprocessTapDance_leaves hkey hgrows hexec ht).trans (processKeycode_leaves hkey hgrows hexec hr hts)

end Calls

theorem passOn_leaves (hkey : IsTapDance keycode) (hgrows : ∀ r, Keeps Grows (exec r))
    (hexec : ∀ r : KeyRecord, ¬ r.source.isOf (qkTapDanceGetIndex keycode) = true →
      Keeps (LeavesDance keycode) (exec r)) (n : Nat) : Keeps (LeavesDance keycode) (passOn env exec n) := by
  induction n with
  | zero => exact fun _ _ h => of_some h ((leavesDance_allows hkey).refl _)
  | succ n ih =>
    intro s s' h
    by_cases ha : Away keycode s
    · rw [passOn] at h
      split at h
      · exact of_some h ((leavesDance_allows hkey).refl s)
      case _ r rest hwaiting =>
        obtain ⟨t, ht, hts⟩ := Option.bind_eq_some_iff.mp h
        have hr : ¬ r.source.isOf (qkTapDanceGetIndex keycode) = true := by
          rw [ha.waiting r (hwaiting ▸ List.mem_cons_self)]
          exact Bool.false_ne_true
        have htake : LeavesDance keycode s (s.setWaiting rest) :=
          .of_same rfl fun _ => ⟨⟨ha.active, ha.other,
            fun x hx => ha.waiting x (hwaiting ▸ List.mem_cons_of_mem r hx)⟩, rfl, rfl, rfl⟩
        exact htake.trans ((processRecord_leaves hkey hgrows hexec r hr ht).trans (ih hts))
    · exact .of_grows (passOn_grows hgrows _ h) ha

theorem actionExec_leaves (hkey : IsTapDance keycode) (depth : Nat) (r : KeyRecord)
    (hr : ¬ r.source.isOf (qkTapDanceGetIndex keycode) = true) :
    Keeps (LeavesDance keycode) (actionExec env depth r) := by
  induction depth generalizing r with
  | zero => exact fun _ _ h => nomatch h
  | succ depth ih =>
    intro s s' h
    have hwait : LeavesDance keycode s (s.wait r) := by
      refine .of_same rfl fun ha => ⟨⟨ha.active, ha.other, fun x hx => ?_⟩, rfl, rfl, rfl⟩
      rcases List.mem_append.mp hx with hx | hx
      · exact ha.waiting x hx
      · rw [List.mem_singleton.mp hx]
        exact Bool.eq_false_iff.mpr hr
    exact hwait.trans (passOn_leaves hkey (actionExec_grows depth) ih _ h)

theorem Step.exec_leaves (hkey : IsTapDance keycode) {depth : Nat} {step : Step}
    (h : step.exec env depth s = some s') : LeavesDance keycode s s' := by
  have hexec : ∀ r : KeyRecord, ¬ r.source.isOf (qkTapDanceGetIndex keycode) = true →
      Keeps (LeavesDance keycode) (actionExec env depth r) := actionExec_leaves hkey depth
  cases step with
  | key pos pressed => exact hexec ⟨.matrix pos, 0, pressed⟩ Bool.false_ne_true h
  | record pos pressed =>
    exact processRecord_leaves hkey (actionExec_grows depth) hexec ⟨.matrix pos, 0, pressed⟩ Bool.false_ne_true h
  | pass n => exact passOn_leaves hkey (actionExec_grows depth) hexec n h
  | task =>
    by_cases ha : Away keycode s
    · by_cases hactive : s.activeTd = 0
      · simp only [Step.exec, tapDanceTask, hactive, true_or, if_true] at h
        exact of_some h ((leavesDance_allows hkey).refl s)
      · have hne := ha.index_ne hkey hactive
        have hR := leavesDance_allows hkey
        exact tapDanceTask_keeps hR (hR.handles hexec hne (not_isOf_dance hne)) h
    · exact .of_grows (Step.exec_grows .task h) ha
  | elapse ms => exact of_some h ((leavesDance_allows hkey).aside (.of_same rfl rfl rfl rfl rfl rfl rfl))

theorem run_leaves (hkey : IsTapDance keycode) {depth : Nat} (steps : List Step) :
    Keeps (LeavesDance keycode) (run env depth · steps) :=
  Keeps.foldlM (leavesDance_allows hkey).refl (leavesDance_allows hkey).trans (f := Step.exec env depth)
    (fun step _ _ => step.exec_leaves hkey) steps

end Frame

/-! ## A dance with a basic keycode on a tap -/

/-- The keycode is of a tap dance whose only action is `on_tap`, with a basic keycode. -/
structure Plain (env : DanceEnv) (keycode : UInt16) (td : VialTapDanceEntry) : Prop where
  isDance : IsTapDance keycode
  entry : env.entries[qkTapDanceGetIndex keycode]? = some td
  onTap : td.onTap ≠ 0
  basic : td.onTap ≤ 0xFF
  onHold : td.onHold = 0
  onDoubleTap : td.onDoubleTap = 0
  onTapHold : td.onTapHold = 0

def tapsAt (count : Nat) : Nat := if count = 3 then 3 else if 3 < count then 1 else 0

def typedAfter (n : Nat) : Nat := n / 256 * 255 + if n % 256 < 3 then 0 else n % 256

/-- How many taps the end of the dance types, the last of them by `on_dance_finished` and `on_dance_reset`. -/
def typedByEnd (n : Nat) : Nat := if n % 256 < 3 then n % 256 else 0

theorem typedAfter_succ (n : Nat) : typedAfter (n + 1) = typedAfter n + tapsAt ((n + 1) % 256) := by
  rw [typedAfter, typedAfter, tapsAt]
  split_ifs <;> omega

theorem typedAfter_add_typedByEnd (n : Nat) : typedAfter n + typedByEnd n = n - n / 256 := by
  rw [typedAfter, typedByEnd]
  split_ifs <;> omega

/-- The state changes in what was typed only, and in the keycode at the magic position. -/
def Types (i : Nat) (out : List (UInt16 × Bool)) (s s' : Board) : Prop :=
  ∃ magic log, s' = { s with magicKeycodeOverride := magic, log := log } ∧ typed i log = typed i s.log ++ out

theorem Types.refl (i : Nat) (s : Board) : Types i [] s s := ⟨_, _, rfl, (List.append_nil _).symm⟩

theorem Types.trans {i : Nat} {out out' : List (UInt16 × Bool)} {s₁ s₂ s₃ : Board} (h : Types i out s₁ s₂)
    (h' : Types i out' s₂ s₃) : Types i (out ++ out') s₁ s₃ := by
  obtain ⟨m, l, rfl, hl⟩ := h
  obtain ⟨m', l', rfl, hl'⟩ := h'
  exact ⟨m', l', rfl, by rw [hl', hl, List.append_assoc]⟩

section Plain

variable {env : DanceEnv} (exec : Exec) {keycode : UInt16} {td : VialTapDanceEntry} (hp : Plain env keycode td)

include hp

theorem Plain.direct : td.onTap ≤ qkModsMax := UInt16.le_trans hp.basic (by decide)

theorem vialKeycode_types (held pressed : Bool) (s : Board) :
    ∃ s', vialKeycode exec (.dance (qkTapDanceGetIndex keycode) held) td.onTap pressed s = some s' ∧
      Types (qkTapDanceGetIndex keycode) [(td.onTap, pressed)] s s' := by
  refine ⟨_, if_pos hp.direct, _, _, rfl, ?_⟩
  simp [Board.write, typed, Source.isOf]

theorem vialKeycodeTap_types (s : Board) :
    ∃ s', vialKeycodeTap exec (.dance (qkTapDanceGetIndex keycode) false) td.onTap s = some s' ∧
      Types (qkTapDanceGetIndex keycode) (pairs td.onTap 1) s s' := by
  obtain ⟨t, ht, htypes⟩ := vialKeycode_types exec hp false true s
  obtain ⟨u, hu, hutypes⟩ := vialKeycode_types exec hp false false t
  refine ⟨u, ?_, htypes.trans hutypes⟩
  rw [vialKeycodeTap, vialKeycodeDown, ht]
  exact hu

theorem onDance_types (s : Board) :
    ∃ s', onDance env exec (qkTapDanceGetIndex keycode) s = some s' ∧
      Types (qkTapDanceGetIndex keycode) (pairs td.onTap (tapsAt (s.action (qkTapDanceGetIndex keycode)).count.toNat))
        { s with tdEntry := td } s' := by
  have htap := vialKeycodeTap_types exec hp
  rw [onDance, hp.entry]
  dsimp only
  rw [if_pos hp.onTap, tapsAt]
  have h3 : (s.action (qkTapDanceGetIndex keycode)).count = 3 ↔
      (s.action (qkTapDanceGetIndex keycode)).count.toNat = 3 := UInt8.toNat_inj.symm
  have hgt : (s.action (qkTapDanceGetIndex keycode)).count > 3 ↔
      3 < (s.action (qkTapDanceGetIndex keycode)).count.toNat := UInt8.lt_iff_toNat_lt
  simp only [h3, hgt]
  split_ifs
  · obtain ⟨t, ht, h₁⟩ := htap { s with tdEntry := td }
    obtain ⟨u, hu, h₂⟩ := htap t
    obtain ⟨v, hv, h₃⟩ := htap u
    exact ⟨v, by rw [ht, Option.bind_some, hu, Option.bind_some, hv], (h₁.trans h₂).trans h₃⟩
  · exact htap _
  · exact ⟨_, rfl, .refl _ _⟩

def finishTypes (keycode : UInt16) (count : Nat) : List (UInt16 × Bool) :=
  if count = 1 then [(keycode, true)] else if count = 2 then pairs keycode 1 ++ [(keycode, true)] else []

def resetTypes (keycode : UInt16) (count : Nat) : List (UInt16 × Bool) :=
  if count = 1 ∨ count = 2 then [(keycode, false)] else []

omit hp in
theorem finishTypes_resetTypes (keycode : UInt16) (n : Nat) :
    finishTypes keycode (n % 256) ++ resetTypes keycode (n % 256) = pairs keycode (typedByEnd n) := by
  rw [finishTypes, resetTypes, typedByEnd]
  by_cases h1 : n % 256 = 1
  · simp [h1, pairs]
  · by_cases h2 : n % 256 = 2
    · simp [h2, pairs]
    · have hzero : (if n % 256 < 3 then n % 256 else 0) = 0 := by split_ifs <;> omega
      simp [h1, h2, hzero, pairs]

theorem Plain.heldKeycode_eq (t : DanceState) :
    heldKeycode td (danceStep t) = if t.count.toNat = 1 ∨ t.count.toNat = 2 then td.onTap else 0 := by
  have h1 : t.count = 1 ↔ t.count.toNat = 1 := UInt8.toNat_inj.symm
  have h2 : t.count = 2 ↔ t.count.toNat = 2 := UInt8.toNat_inj.symm
  rw [danceStep]
  simp only [h1, h2]
  split_ifs <;> simp_all [heldKeycode, hp.onHold, hp.onDoubleTap, hp.onTapHold]

theorem tapThenDown_types {next : VialTapDanceEntry → UInt16} (hnext : next td = td.onTap) {s : Board}
    (hs : s.tdEntry = td) :
    ∃ s', tapThenDown exec (qkTapDanceGetIndex keycode) next s = some s' ∧
      Types (qkTapDanceGetIndex keycode) (pairs td.onTap 1 ++ [(td.onTap, true)]) s s' := by
  obtain ⟨t, ht, htypes⟩ := vialKeycodeTap_types exec hp s
  have hentry : t.tdEntry = td := by
    obtain ⟨m, l, rfl, -⟩ := htypes
    exact hs
  obtain ⟨u, hu, hutypes⟩ := vialKeycode_types exec hp true true t
  refine ⟨u, ?_, htypes.trans hutypes⟩
  rw [tapThenDown, hs, ht, Option.bind_some, Board.slipIf, if_neg (fun hne => hne hentry)]
  show vialKeycodeDown exec _ (next t.tdEntry) t = some u
  rw [hentry, hnext]
  exact hu

theorem onDanceFinished_types (s : Board) :
    ∃ s', onDanceFinished env exec (qkTapDanceGetIndex keycode) s = some s' ∧
      Types (qkTapDanceGetIndex keycode)
        (finishTypes td.onTap (s.action (qkTapDanceGetIndex keycode)).count.toNat)
        (s.outcome (qkTapDanceGetIndex keycode) td) s' := by
  have hdown := vialKeycode_types exec hp true true (s.outcome (qkTapDanceGetIndex keycode) td)
  have htap := fun (next : VialTapDanceEntry → UInt16) (hnext : next td = td.onTap) =>
    tapThenDown_types exec hp hnext (s := s.outcome (qkTapDanceGetIndex keycode) td) rfl
  simp only [Board.outcome] at hdown htap ⊢
  by_cases h1 : (s.action (qkTapDanceGetIndex keycode)).count = 1
  · -- `SINGLE_TAP` or `SINGLE_HOLD`
    have hst : danceStep (s.action (qkTapDanceGetIndex keycode)) = .singleTap ∨
        danceStep (s.action (qkTapDanceGetIndex keycode)) = .singleHold := by
      rw [danceStep, if_pos h1]
      split
      · exact .inl rfl
      · exact .inr rfl
    rw [h1]
    rcases hst with hst | hst <;>
      simp only [onDanceFinished, hp.entry, hst, hp.onHold, hp.onTap, ne_eq, not_true_eq_false, not_false_eq_true,
        if_true, if_false] at hdown ⊢ <;>
      exact hdown
  by_cases h2 : (s.action (qkTapDanceGetIndex keycode)).count = 2
  · -- one of the double outcomes
    have hst : danceStep (s.action (qkTapDanceGetIndex keycode)) = .doubleSingleTap ∨
        danceStep (s.action (qkTapDanceGetIndex keycode)) = .doubleHold ∨
        danceStep (s.action (qkTapDanceGetIndex keycode)) = .doubleTap := by
      rw [danceStep, if_neg h1, if_pos h2]
      split_ifs
      · exact .inl rfl
      · exact .inr (.inl rfl)
      · exact .inr (.inr rfl)
    rw [h2]
    rcases hst with hst | hst | hst <;>
      simp only [onDanceFinished, hp.entry, hst, hp.onHold, hp.onTap, hp.onDoubleTap, hp.onTapHold, ne_eq,
        not_true_eq_false, not_false_eq_true, if_true, if_false] at htap ⊢
    · exact htap _ rfl
    · exact htap _ (by simp [hp.onHold])
    · exact htap _ rfl
  · have hst : danceStep (s.action (qkTapDanceGetIndex keycode)) = .moreTaps := by
      rw [danceStep, if_neg h1, if_neg h2]
    have h1' : (s.action (qkTapDanceGetIndex keycode)).count.toNat ≠ 1 := fun h => h1 (UInt8.toNat_inj.mp h)
    have h2' : (s.action (qkTapDanceGetIndex keycode)).count.toNat ≠ 2 := fun h => h2 (UInt8.toNat_inj.mp h)
    simp only [onDanceFinished, hp.entry, hst, finishTypes, h1', h2', if_false]
    exact ⟨_, rfl, .refl _ _⟩

end Plain

/-! ## What a dance shows -/

/-- The state of a dance, its outcome and what it typed, while nothing that it issued waits. -/
structure Shows (keycode : UInt16) (t : DanceState) (st : Outcome) (out : List (UInt16 × Bool)) (s : Board) : Prop where
  action : s.action (qkTapDanceGetIndex keycode) = t
  danceState : s.danceState (qkTapDanceGetIndex keycode) = st
  typed : typed (qkTapDanceGetIndex keycode) s.log = out
  waiting : ∀ r ∈ s.waiting, r.source.isOf (qkTapDanceGetIndex keycode) = false

namespace Shows

variable {keycode : UInt16} {t : DanceState} {st : Outcome} {out : List (UInt16 × Bool)} {s : Board}
  (h : Shows keycode t st out s)

include h

theorem write {e : Event} (he : TapDance.typed (qkTapDanceGetIndex keycode) [e] = []) :
    Shows keycode t st out (s.write e) :=
  ⟨h.action, h.danceState, by rw [Board.write, typed_append, he, List.append_nil, h.typed], h.waiting⟩

theorem slipIf (p : Prop) [Decidable p] (x : Slip) : Shows keycode t st out (s.slipIf p x) := by
  rw [Board.slipIf]
  split
  · exact h.write rfl
  · exact h

theorem setRunning (j : Nat) (b : Bool) : Shows keycode t st out (s.setRunning j b) :=
  ⟨h.action, h.danceState, h.typed, h.waiting⟩

theorem setAction (t' : DanceState) : Shows keycode t' st out (s.setAction (qkTapDanceGetIndex keycode) t') :=
  ⟨s.setAction_self t', h.danceState, h.typed, h.waiting⟩

theorem setMods (j : Nat) (m : DanceMods) : Shows keycode t st out (s.setMods j m) :=
  ⟨h.action, h.danceState, h.typed, h.waiting⟩

theorem stamp : Shows keycode t st out s.stamp := ⟨h.action, h.danceState, h.typed, h.waiting⟩

theorem setEntry (td : VialTapDanceEntry) : Shows keycode t st out { s with tdEntry := td } :=
  ⟨h.action, h.danceState, h.typed, h.waiting⟩

theorem setActive (k : UInt16) : Shows keycode t st out { s with activeTd := k } :=
  ⟨h.action, h.danceState, h.typed, h.waiting⟩

theorem outcome (td : VialTapDanceEntry) :
    Shows keycode t (danceStep t) out (s.outcome (qkTapDanceGetIndex keycode) td) :=
  ⟨h.action, (Board.setDanceState_self _ _).trans (by rw [h.action]), h.typed, h.waiting⟩

theorem noOutcome (td : VialTapDanceEntry) :
    Shows keycode (t.setCount 0) .none out (s.noOutcome (qkTapDanceGetIndex keycode) td) :=
  ⟨(Board.setAction_self _ _).trans (by rw [h.action]), Board.setDanceState_self _ _, h.typed, h.waiting⟩

theorem types {out' : List (UInt16 × Bool)} {s' : Board} (ht : Types (qkTapDanceGetIndex keycode) out' s s') :
    Shows keycode t st (out ++ out') s' := by
  obtain ⟨m, l, rfl, hl⟩ := ht
  exact ⟨h.action, h.danceState, hl.trans (by rw [h.typed]), h.waiting⟩

end Shows

theorem Types.activeTd {i : Nat} {out : List (UInt16 × Bool)} {s s' : Board} (h : Types i out s s') :
    s'.activeTd = s.activeTd := by
  obtain ⟨m, l, rfl, -⟩ := h
  rfl

@[simp]
theorem slipIf_activeTd (s : Board) (p : Prop) [Decidable p] (x : Slip) : (s.slipIf p x).activeTd = s.activeTd := by
  rw [Board.slipIf]
  split <;> rfl

section Plain

variable {env : DanceEnv} (exec : Exec) {keycode : UInt16} {td : VialTapDanceEntry} (hp : Plain env keycode td)
  {t : DanceState} {st : Outcome} {out : List (UInt16 × Bool)} {s : Board}

include hp

theorem finishDance_shows (hs : Shows keycode t st out s) :
    ∃ s', finishDance env exec (qkTapDanceGetIndex keycode) s = some s' ∧ s'.activeTd = s.activeTd ∧
      Shows keycode t.setFinished (danceStep t) (out ++ finishTypes td.onTap t.count.toNat) s' := by
  have hslip := hs.slipIf (s.running (qkTapDanceGetIndex keycode) = true) .reentered
  have hactive := slipIf_activeTd s (s.running (qkTapDanceGetIndex keycode) = true) .reentered
  rw [finishDance]
  generalize s.slipIf (s.running (qkTapDanceGetIndex keycode) = true) .reentered = u at hslip hactive ⊢
  rw [hslip.action]
  have hwrite : ∀ m, Shows keycode t.setFinished st out
      ((u.setAction (qkTapDanceGetIndex keycode) t.setFinished).write (.finished (qkTapDanceGetIndex keycode) m)) :=
    fun m => (hslip.setAction t.setFinished).write rfl
  have hstart := (hwrite (u.mods (qkTapDanceGetIndex keycode))).setRunning (qkTapDanceGetIndex keycode) true
  obtain ⟨v, hv, htypes⟩ := onDanceFinished_types exec hp _
  rw [hstart.action] at htypes
  refine ⟨_, congrArg (Option.map _) hv, ?_, ?_⟩
  · exact htypes.activeTd.trans hactive
  · exact ((hstart.outcome td).types htypes).setRunning _ _

theorem onDanceReset_types {c : Nat}
    (hheld : heldKeycode td (s.danceState (qkTapDanceGetIndex keycode)) = if c = 1 ∨ c = 2 then td.onTap else 0) :
    ∃ s', onDanceReset env exec (qkTapDanceGetIndex keycode) s = some s' ∧
      Types (qkTapDanceGetIndex keycode) (resetTypes td.onTap c) (s.noOutcome (qkTapDanceGetIndex keycode) td) s' := by
  rw [onDanceReset_eq exec hp.entry, resetTypes, hheld]
  split
  · rw [if_neg hp.onTap]
    exact vialKeycode_types exec hp true false _
  · rw [if_pos rfl]
    exact ⟨_, rfl, .refl _ _⟩

theorem processTapDanceActionOnReset_shows (hs : Shows keycode t st out s) {c : Nat}
    (hheld : heldKeycode td st = if c = 1 ∨ c = 2 then td.onTap else 0) :
    ∃ s', processTapDanceActionOnReset env exec (qkTapDanceGetIndex keycode) s = some s' ∧
      s'.activeTd = s.activeTd ∧ Shows keycode .zero .none (out ++ resetTypes td.onTap c) s' := by
  have hslip := hs.slipIf (s.running (qkTapDanceGetIndex keycode) = true ∧
    s.danceState (qkTapDanceGetIndex keycode) ≠ .none) .reentered
  have hactive := slipIf_activeTd s (s.running (qkTapDanceGetIndex keycode) = true ∧
    s.danceState (qkTapDanceGetIndex keycode) ≠ .none) .reentered
  rw [processTapDanceActionOnReset]
  generalize s.slipIf (s.running (qkTapDanceGetIndex keycode) = true ∧
    s.danceState (qkTapDanceGetIndex keycode) ≠ .none) .reentered = u at hslip hactive ⊢
  have hstart := hslip.setRunning (qkTapDanceGetIndex keycode) true
  rw [← hstart.danceState] at hheld
  obtain ⟨v, hv, htypes⟩ := onDanceReset_types exec hp hheld
  refine ⟨_, by rw [callback, hv, Option.map_some, Option.map_some], ?_, ?_⟩
  · exact htypes.activeTd.trans hactive
  · exact (((((hstart.noOutcome td).types htypes).setRunning _ _).write rfl).setAction .zero).setMods _ _

/-- The end of a dance: what is left to type, but for the last release while the key is down. -/
theorem processTapDanceActionOnDanceFinished_shows (hs : Shows keycode t st out s) (hnot : t.finished = false) :
    ∃ s', processTapDanceActionOnDanceFinished env exec (qkTapDanceGetIndex keycode) s = some s' ∧ s'.activeTd = 0 ∧
      if t.pressed then
        Shows keycode t.setFinished (danceStep t) (out ++ finishTypes td.onTap t.count.toNat) s'
      else
        Shows keycode .zero .none (out ++ finishTypes td.onTap t.count.toNat ++ resetTypes td.onTap t.count.toNat)
          s' := by
  obtain ⟨u, hu, -, hshows⟩ := finishDance_shows exec hp hs
  have hzero := hshows.setActive 0
  rw [processTapDanceActionOnDanceFinished, hs.action, hnot]
  simp only [Bool.false_eq_true, if_false, hu, Option.bind_some, hshows.action]
  show ∃ s', (if t.pressed then _ else _) = some s' ∧ _
  split
  · exact ⟨_, rfl, rfl, hzero⟩
  · obtain ⟨v, hv, hactive, hv'⟩ := processTapDanceActionOnReset_shows exec hp hzero
      (hp.heldKeycode_eq t)
    exact ⟨v, hv, hactive, hv'⟩

end Plain

/-! ## Taps -/

section Taps

variable (env : DanceEnv) (depth : Nat) (keycode : UInt16) (term : UInt16)

/-- A number of taps on the key of a dance, the key down or up behind them. Meanwhile other keys may go up that
are not of a dance, and the task finds the tapping term of the last tap not over. -/
inductive Taps : Nat → Bool → Board → Board → Prop where
  | rest (s : Board) : Taps 0 false s s
  | press {n s₀ s s'} (pos : Nat) : Taps n false s₀ s → env.keymap s.log pos true = keycode →
      Step.exec env depth s (.record pos true) = some s' → Taps (n + 1) true s₀ s'
  | release {n s₀ s s'} (pos : Nat) : Taps n true s₀ s → env.keymap s.log pos false = keycode →
      Step.exec env depth s (.record pos false) = some s' → Taps n false s₀ s'
  | other {n held s₀ s s'} (pos : Nat) : Taps n held s₀ s → ¬ IsTapDance (env.keymap s.log pos false) →
      Step.exec env depth s (.record pos false) = some s' → Taps n held s₀ s'
  | task {n held s₀ s s'} : Taps n held s₀ s → s.now - s.lastTapTime ≤ term →
      Step.exec env depth s .task = some s' → Taps n held s₀ s'
  | elapse {n held s₀ s} (ms : UInt16) : Taps n held s₀ s → Taps n held s₀ { s with now := s.now + ms }

def NoKey (s s' : Board) : Prop := ∃ new, s'.log = s.log ++ new ∧ ∀ e ∈ new, ¬ e.KeyOf keycode

/-- The tapping term is over, or another key is pressed. -/
inductive Ends : Board → Board → Prop where
  | timeout {s s'} : term < s.now - s.lastTapTime → Step.exec env depth s .task = some s' → Ends s s'
  | interrupted {s s'} (pos : Nat) : env.keymap s.log pos true ≠ keycode →
      Step.exec env depth s (.record pos true) = some s' → NoKey keycode s s' → Ends s s'

/-- Taps that end behind the last release, or while the last tap is held; then it is released later. -/
inductive TapsThenEnds (n : Nat) (s₀ : Board) : Board → Prop where
  | lifted {s s'} : Taps env depth keycode term n false s₀ s → Ends env depth keycode term s s' →
      TapsThenEnds n s₀ s'
  | held {s s₁ s₂ s'} (steps : List Step) (pos : Nat) : Taps env depth keycode term n true s₀ s →
      Ends env depth keycode term s s₁ → run env depth s₁ steps = some s₂ → NoKey keycode s₁ s₂ →
      env.keymap s₂.log pos false = keycode → Step.exec env depth s₂ (.record pos false) = some s' →
      TapsThenEnds n s₀ s'

end Taps

section Run

variable {env : DanceEnv} (exec : Exec) {keycode : UInt16} {td : VialTapDanceEntry} (hp : Plain env keycode td)
  {t : DanceState} {st : Outcome} {out : List (UInt16 × Bool)} {s : Board}

theorem processRecord_matrix (env : DanceEnv) (exec : Exec) (s : Board) (pos : Nat) (pressed : Bool)
    (h : pressed = false ∨ s.activeTd = 0 ∨ env.keymap s.log pos pressed = s.activeTd) :
    processRecord env exec ⟨.matrix pos, 0, pressed⟩ s =
      processKeycode env exec (env.keymap s.log pos pressed) ⟨.matrix pos, 0, pressed⟩
        (s.write (.processed ⟨.matrix pos, 0, pressed⟩ (env.keymap s.log pos pressed))) := by
  have hpre : preprocessTapDance env exec (env.keymap s.log pos pressed) ⟨.matrix pos, 0, pressed⟩ s =
      some (false, s) := by
    rw [preprocessTapDance]
    split
    · rfl
    · rw [if_pos (h.resolve_left ‹_›)]
  rw [processRecord]
  show (preprocessTapDance env exec (env.keymap s.log pos pressed) _ s).bind _ = _
  rw [hpre]
  rfl

theorem Shows.written (h : Shows keycode t st out s) (pos : Nat) (pressed : Bool) (k : UInt16) :
    Shows keycode t st out (s.write (.processed ⟨.matrix pos, 0, pressed⟩ k)) :=
  h.write rfl

theorem processKeycode_release {k : UInt16} (hk : ¬ IsTapDance k) {r : KeyRecord} (hr : r.pressed = false) (s : Board) :
    processKeycode env exec k r s = some s := by
  rw [processKeycode, if_neg (fun h => by rw [hr] at h; exact Bool.false_ne_true h.1), processRecordVial,
    if_neg (fun h => hk h.2), Option.bind_some, processTapDance, if_neg (fun h => hk h.1)]

include hp

theorem Plain.index_lt : qkTapDanceGetIndex keycode < env.entries.length := by
  obtain ⟨h, -⟩ := List.getElem?_eq_some_iff.mp hp.entry
  exact h

theorem processKeycode_dance (r : KeyRecord) (s : Board) : processKeycode env exec keycode r s =
    (processRecordVial env exec keycode r s).bind (processTapDance env exec keycode r) := by
  rw [processKeycode, if_neg]
  rintro ⟨-, hlow, -⟩
  exact absurd (UInt16.le_trans hlow hp.isDance.2) (by decide)

theorem processTapDanceActionOnEachTap_shows (hs : Shows keycode t st out s) (hnot : t.finished = false) :
    ∃ s', processTapDanceActionOnEachTap env exec (qkTapDanceGetIndex keycode) s = some s' ∧
      Shows keycode (t.setCount (t.count + 1)) st (out ++ pairs td.onTap (tapsAt (t.count + 1).toNat)) s' := by
  have hfinished : ¬ (s.action (qkTapDanceGetIndex keycode)).finished = true := by
    rw [hs.action, hnot]
    exact Bool.false_ne_true
  rw [processTapDanceActionOnEachTap, Board.slipIf, if_neg fun h => hfinished h.1, hs.action]
  have hcount := (hs.setAction (t.setCount (t.count + 1))).setMods (qkTapDanceGetIndex keycode)
    (env.mods s.log).forDance
  obtain ⟨s', hs', htypes⟩ := onDance_types exec hp _
  rw [hcount.action] at htypes
  exact ⟨s', hs', (hcount.setEntry td).types htypes⟩

theorem processKeycode_press (hs : Shows keycode t st out s) (hnot : t.finished = false) {r : KeyRecord}
    (hr : r.pressed = true) :
    ∃ s', processKeycode env exec keycode r s = some s' ∧ s'.activeTd = keycode ∧
      Shows keycode ((t.setPressed true).setCount (t.count + 1)) st
        (out ++ pairs td.onTap (tapsAt (t.count + 1).toNat)) s' := by
  obtain ⟨v, hv, hend⟩ := processTapDanceActionOnEachTap_shows exec hp (hs.setAction (t.setPressed true)).stamp hnot
  refine ⟨{ v with activeTd := keycode }, ?_, rfl, hend.setActive keycode⟩
  rw [processKeycode_dance exec hp, processRecordVial, if_neg (fun h => by rw [hr] at h; exact Bool.noConfusion h.1),
    Option.bind_some, processTapDance, if_pos ⟨hp.isDance, hp.index_lt⟩, if_pos hr, tapDancePress, hs.action]
  show Option.map _ (processTapDanceActionOnEachTap env exec _ _) = _
  rw [hv, Option.map_some, hend.action]
  show some { v with activeTd := if t.finished then 0 else keycode } = _
  rw [hnot]
  rfl

theorem processKeycode_release_dance (hs : Shows keycode t st out s) {r : KeyRecord} (hr : r.pressed = false) :
    ∃ u, Shows keycode t st out u ∧ u.activeTd = s.activeTd ∧
      processKeycode env exec keycode r s = tapDanceRelease env exec keycode u := by
  refine ⟨{ s with tdEntry := td }, hs.setEntry td, rfl, ?_⟩
  have hvial : processRecordVial env exec keycode r s = some { s with tdEntry := td } := by
    simp only [processRecordVial, hr, hp.isDance, and_self, if_true, sub_qkTapDance hp.isDance, hp.entry]
    exact if_neg (by simp [hp.onHold, hp.onDoubleTap])
  rw [processKeycode_dance exec hp, hvial, Option.bind_some, processTapDance, if_pos ⟨hp.isDance, hp.index_lt⟩,
    if_neg (by rw [hr]; exact Bool.false_ne_true)]

omit hp in
theorem tapDanceRelease_shows (hs : Shows keycode t st out s) (hnot : t.finished = false) :
    ∃ s', tapDanceRelease env exec keycode s = some s' ∧ s'.activeTd = s.activeTd ∧
      Shows keycode (t.setPressed false) st out s' := by
  have hpressed := hs.setAction (t.setPressed false)
  refine ⟨s.setAction (qkTapDanceGetIndex keycode) (t.setPressed false), ?_, rfl, hpressed⟩
  rw [tapDanceRelease, hs.action]
  show (if ((s.setAction (qkTapDanceGetIndex keycode) (t.setPressed false)).action _).finished then _ else _) = _
  rw [hpressed.action, DanceState.setPressed_finished, hnot]
  rfl

theorem tapDanceRelease_finished (hs : Shows keycode t st out s) (hfinished : t.finished = true) {c : Nat}
    (hheld : heldKeycode td st = if c = 1 ∨ c = 2 then td.onTap else 0) :
    ∃ s', tapDanceRelease env exec keycode s = some s' ∧
      Shows keycode .zero .none (out ++ resetTypes td.onTap c) s' := by
  have hpressed := hs.setAction (t.setPressed false)
  obtain ⟨v, hv, -, hshows⟩ := processTapDanceActionOnReset_shows exec hp hpressed hheld
  rw [tapDanceRelease, hs.action]
  show ∃ s', (if ((s.setAction (qkTapDanceGetIndex keycode) (t.setPressed false)).action _).finished then _ else _) =
    some s' ∧ _
  rw [hpressed.action, DanceState.setPressed_finished, if_pos hfinished, hv, Option.map_some]
  refine ⟨_, rfl, ?_⟩
  split
  · exact hshows.setActive 0
  · exact hshows

/-- Behind a number of taps the dance has counted them and typed what `on_dance` does. -/
structure Tapped (keycode : UInt16) (td : VialTapDanceEntry) (out : List (UInt16 × Bool)) (n : Nat) (held : Bool)
    (s : Board) : Prop where
  shows : Shows keycode ⟨UInt8.ofNat n, held, false, false⟩ .none (out ++ pairs td.onTap (typedAfter n)) s
  active : s.activeTd = if n = 0 then 0 else keycode

variable {n depth : Nat} {held : Bool} {pos : Nat}

omit hp in
theorem Tapped.active_or (h : Tapped keycode td out n held s) : s.activeTd = 0 ∨ keycode = s.activeTd := by
  rw [h.active]
  split
  · exact .inl rfl
  · exact .inr rfl

theorem Tapped.press (depth : Nat) (h : Tapped keycode td out n false s) (hkey : env.keymap s.log pos true = keycode) :
    ∃ s', Step.exec env depth s (.record pos true) = some s' ∧ Tapped keycode td out (n + 1) true s' := by
  have hrecord := processRecord_matrix env (actionExec env depth) s pos true (.inr (by rw [hkey]; exact h.active_or))
  rw [hkey] at hrecord
  obtain ⟨s', hs', hactive, hshows⟩ := processKeycode_press (actionExec env depth) hp
    (h.shows.written pos true keycode) rfl (r := ⟨.matrix pos, 0, true⟩) rfl
  refine ⟨s', hrecord.trans hs', ?_, ?_⟩
  · have hcount : UInt8.ofNat n + 1 = UInt8.ofNat (n + 1) := (UInt8.ofNat_add n 1).symm
    have htaps : (UInt8.ofNat (n + 1)).toNat = (n + 1) % 256 := UInt8.toNat_ofNat' ..
    rw [show (⟨UInt8.ofNat n, false, false, false⟩ : DanceState).count = UInt8.ofNat n from rfl, hcount, htaps,
      List.append_assoc, ← pairs_add, ← typedAfter_succ] at hshows
    exact hshows
  · rw [hactive, if_neg n.succ_ne_zero]

theorem Tapped.release (depth : Nat) (h : Tapped keycode td out n true s)
    (hkey : env.keymap s.log pos false = keycode) :
    ∃ s', Step.exec env depth s (.record pos false) = some s' ∧ Tapped keycode td out n false s' := by
  have hrecord := processRecord_matrix env (actionExec env depth) s pos false (.inl rfl)
  rw [hkey] at hrecord
  obtain ⟨u, hu, hactive, hrelease⟩ := processKeycode_release_dance (actionExec env depth) hp
    (h.shows.written pos false keycode) (r := ⟨.matrix pos, 0, false⟩) rfl
  obtain ⟨s', hs', hactive', hshows⟩ := tapDanceRelease_shows (actionExec env depth) hu rfl
  refine ⟨s', hrecord.trans (hrelease.trans hs'), hshows, ?_⟩
  rw [hactive', hactive]
  exact h.active

omit hp in
theorem Tapped.other (h : Tapped keycode td out n held s) (hkey : ¬ IsTapDance (env.keymap s.log pos false)) :
    ∃ s', Step.exec env depth s (.record pos false) = some s' ∧ Tapped keycode td out n held s' := by
  have hrecord := processRecord_matrix env (actionExec env depth) s pos false (.inl rfl)
  exact ⟨_, hrecord.trans (processKeycode_release _ hkey rfl _), h.shows.written pos false _, h.active⟩

theorem tapDanceTask_eq (hactive : s.activeTd = keycode) : tapDanceTask env exec s =
    if s.activeTd = 0 ∨ s.now - s.lastTapTime ≤ td.customTappingTerm then some s
    else if (s.action (qkTapDanceGetIndex keycode)).interrupted then some s
    else processTapDanceActionOnDanceFinished env exec (qkTapDanceGetIndex keycode) s := by
  simp only [tapDanceTask, hactive, hp.entry, Option.map_some, Option.getD_some]

theorem Tapped.task (depth : Nat) (h : Tapped keycode td out n held s)
    (hterm : s.now - s.lastTapTime ≤ td.customTappingTerm) : Step.exec env depth s .task = some s := by
  show tapDanceTask env (actionExec env depth) s = some s
  rcases h.active_or with hactive | hactive
  · rw [tapDanceTask]
    exact if_pos (.inl hactive)
  · rw [tapDanceTask_eq _ hp hactive.symm, if_pos (.inr hterm)]

theorem Taps.tapped {s₀ : Board} (h : Taps env depth keycode td.customTappingTerm n held s₀ s)
    (hrest : Shows keycode .zero .none out s₀) (hactive : s₀.activeTd = 0) : Tapped keycode td out n held s := by
  induction h with
  | rest s =>
    refine ⟨?_, by rw [if_pos rfl, hactive]⟩
    show Shows keycode .zero .none (out ++ []) s
    rw [List.append_nil]
    exact hrest
  | press pos _ hkey hexec ih =>
    obtain ⟨s', hs', htapped⟩ := (ih hrest hactive).press hp _ hkey
    rwa [Option.some.inj (hexec.symm.trans hs')]
  | release pos _ hkey hexec ih =>
    obtain ⟨s', hs', htapped⟩ := (ih hrest hactive).release hp _ hkey
    rwa [Option.some.inj (hexec.symm.trans hs')]
  | other pos _ hkey hexec ih =>
    obtain ⟨s', hs', htapped⟩ := (ih hrest hactive).other hkey
    rwa [Option.some.inj (hexec.symm.trans hs')]
  | task _ hterm hexec ih =>
    have htask := (ih hrest hactive).task hp depth hterm
    rw [← Option.some.inj (htask.symm.trans hexec)]
    exact ih hrest hactive
  | elapse ms _ ih => exact ⟨⟨(ih hrest hactive).shows.action, (ih hrest hactive).shows.danceState,
      (ih hrest hactive).shows.typed, (ih hrest hactive).shows.waiting⟩, (ih hrest hactive).active⟩

/-- Behind the end of the dance. While its key is down, the release of what it pressed last is left to type. -/
structure Ended (keycode : UInt16) (td : VialTapDanceEntry) (out : List (UInt16 × Bool)) (n : Nat) (held : Bool)
    (s : Board) : Prop where
  away : Away keycode s
  up : held = false → Shows keycode .zero .none (out ++ pairs td.onTap (typedAfter n) ++
    finishTypes td.onTap (n % 256) ++ resetTypes td.onTap (n % 256)) s
  down : held = true → ∃ t st, t.finished = true ∧
    heldKeycode td st = (if n % 256 = 1 ∨ n % 256 = 2 then td.onTap else 0) ∧
    Shows keycode t st (out ++ pairs td.onTap (typedAfter n) ++ finishTypes td.onTap (n % 256)) s

theorem Plain.ne_zero : keycode ≠ 0 := by
  rintro rfl
  exact absurd hp.isDance (by decide)

theorem ended_of_shows {interrupted : Bool}
    (h : Shows keycode ⟨UInt8.ofNat n, held, false, interrupted⟩ .none (out ++ pairs td.onTap (typedAfter n)) s) :
    ∃ s', processTapDanceActionOnDanceFinished env exec (qkTapDanceGetIndex keycode) s = some s' ∧
      Ended keycode td out n held s' := by
  obtain ⟨s', hs', hactive, hshows⟩ := processTapDanceActionOnDanceFinished_shows exec hp h rfl
  have hcount : (UInt8.ofNat n).toNat = n % 256 := UInt8.toNat_ofNat' ..
  have haway : (∀ r ∈ s'.waiting, r.source.isOf (qkTapDanceGetIndex keycode) = false) → Away keycode s' := fun hw =>
    ⟨.inl hactive, by rw [hactive]; exact hp.ne_zero.symm, hw⟩
  refine ⟨s', hs', ?_⟩
  cases held with
  | true =>
    have hheld := hp.heldKeycode_eq ⟨UInt8.ofNat n, true, false, interrupted⟩
    simp only [if_true, hcount] at hshows hheld
    exact ⟨haway hshows.waiting, Bool.noConfusion, fun _ => ⟨_, _, rfl, hheld, hshows⟩⟩
  | false =>
    simp only [Bool.false_eq_true, if_false, hcount] at hshows
    exact ⟨haway hshows.waiting, fun _ => hshows, Bool.noConfusion⟩

omit hp in
/-- The dance stays as it is on the way behind a state to the end of a step in which its key does not take part. -/
theorem NoKey.left {u s' : Board} (h : NoKey keycode s s') (hu : Grows s u) (hleaves : LeavesDance keycode u s')
    (ha : Away keycode u) : Left keycode u s' := by
  obtain ⟨new, hlog, hnew⟩ := h
  obtain ⟨pre, hpre⟩ := hu
  obtain ⟨post, hpost, hleft⟩ := hleaves
  have happend : new = pre ++ post := by
    rw [hpost, ← hpre, List.append_assoc] at hlog
    exact (List.append_cancel_left hlog).symm
  exact hleft (fun e he => hnew e (by rw [happend]; exact List.mem_append_right _ he)) ha

omit hp in
theorem Ended.left {s' : Board} (h : Ended keycode td out n held s) (hleft : Left keycode s s') :
    Ended keycode td out n held s' := by
  have hshows : ∀ {t st out}, Shows keycode t st out s → Shows keycode t st out s' := fun h =>
    ⟨hleft.action.trans h.action, hleft.danceState.trans h.danceState, hleft.typed.trans h.typed, hleft.away.waiting⟩
  refine ⟨hleft.away, fun hup => hshows (h.up hup), fun hdown => ?_⟩
  obtain ⟨t, st, hfinished, hheld, hs⟩ := h.down hdown
  exact ⟨t, st, hfinished, hheld, hshows hs⟩

theorem Tapped.ends {s' : Board} (h : Tapped keycode td out n held s) (hn : n ≠ 0)
    (hends : Ends env depth keycode td.customTappingTerm s s') : Ended keycode td out n held s' := by
  have hactive : s.activeTd = keycode := h.active.trans (if_neg hn)
  cases hends with
  | timeout hterm hexec =>
    obtain ⟨t, ht, hended⟩ := ended_of_shows (actionExec env depth) hp h.shows
    have htask : tapDanceTask env (actionExec env depth) s = some s' := hexec
    rw [tapDanceTask_eq _ hp hactive, if_neg, if_neg, ht] at htask
    · exact Option.some.inj htask ▸ hended
    · rw [h.shows.action]
      exact Bool.false_ne_true
    · rw [hactive]
      exact fun hor => hor.elim hp.ne_zero (UInt16.not_le.mpr hterm)
  | interrupted pos hkey hexec hnokey =>
    -- `preprocess_tap_dance` ends the dance, and the rest of the record leaves it alone
    obtain ⟨u, hu, hended⟩ := ended_of_shows (actionExec env depth) hp
      (h.shows.setAction (DanceState.setInterrupted ⟨UInt8.ofNat n, held, false, false⟩))
    have hpre : preprocessTapDance env (actionExec env depth) (env.keymap s.log pos true) ⟨.matrix pos, 0, true⟩ s =
        some (true, u.write .weakModsCleared) := by
      rw [preprocessTapDance, if_neg Bool.noConfusion, if_neg]
      · simp only [Source.held, Bool.false_eq_true, false_and, Board.slipIf, if_false, hactive, h.shows.action, hu,
          Option.map_some]
      · rw [hactive]
        exact fun hor => hor.elim hp.ne_zero hkey
    obtain ⟨⟨again, t⟩, ht, hts⟩ := Option.bind_eq_some_iff.mp hexec
    have hpair := Option.some.inj (hpre.symm.trans ht)
    cases hpair
    have hleaves := processKeycode_leaves hp.isDance (actionExec_grows depth) (actionExec_leaves hp.isDance depth)
      (r := ⟨.matrix pos, 0, true⟩) Bool.false_ne_true hts
    have hcleared : Left keycode u (u.write .weakModsCleared) := by
      refine ⟨⟨hended.away.active, hended.away.other, hended.away.waiting⟩, rfl, rfl, ?_⟩
      rw [Board.write, typed_append]
      exact List.append_nil _
    have hgrows : Grows s (u.write .weakModsCleared) :=
      preprocessTapDance_keeps grows_allows (grows_handles (actionExec_grows depth) _) hpre
    exact (hended.left hcleared).left (hnokey.left hgrows hleaves hcleared.away)

/-- The dance types a press and release for every tap but the ones that take its count back to 0. -/
theorem taps_typed {s₀ : Board} (hrest : Shows keycode .zero .none out s₀) (hactive : s₀.activeTd = 0) (hn : n ≠ 0)
    (h : TapsThenEnds env depth keycode td.customTappingTerm n s₀ s) :
    typed (qkTapDanceGetIndex keycode) s.log = out ++ pairs td.onTap (n - n / 256) := by
  have htotal : out ++ pairs td.onTap (typedAfter n) ++ finishTypes td.onTap (n % 256) ++
      resetTypes td.onTap (n % 256) = out ++ pairs td.onTap (n - n / 256) := by
    rw [List.append_assoc, finishTypes_resetTypes, List.append_assoc, ← pairs_add, typedAfter_add_typedByEnd]
  rw [← htotal]
  cases h with
  | lifted htaps hends => exact (((htaps.tapped hp hrest hactive).ends hp hn hends).up rfl).typed
  | @held s₁ s₂ s₃ _ steps pos htaps hends hrun hnokey hkey hexec =>
    have hended := (htaps.tapped hp hrest hactive).ends hp hn hends
    have hleft := hnokey.left List.prefix_rfl (run_leaves hp.isDance steps hrun) hended.away
    obtain ⟨t, st, hfinished, hheld, hshows⟩ := (hended.left hleft).down rfl
    have hrecord := processRecord_matrix env (actionExec env depth) s₃ pos false (.inl rfl)
    rw [hkey] at hrecord
    obtain ⟨u, hu, -, hrelease⟩ := processKeycode_release_dance (actionExec env depth) hp
      (hshows.written pos false keycode) (r := ⟨.matrix pos, 0, false⟩) rfl
    obtain ⟨s', hs', hend⟩ := tapDanceRelease_finished (actionExec env depth) hp hu hfinished hheld
    rw [Option.some.inj (hexec.symm.trans (hrecord.trans (hrelease.trans hs')))]
    exact hend.typed

/-- On a key that is always of the dance, it can be tapped as often as one likes, until the tapping term is over. -/
theorem exists_tapsThenEnds (depth : Nat) (pos : Nat) {s₀ : Board}
    (hkey : ∀ log pressed, env.keymap log pos pressed = keycode)
    (hterm : td.customTappingTerm < td.customTappingTerm + 1) (hrest : Shows keycode .zero .none out s₀)
    (hactive : s₀.activeTd = 0) (n : Nat) (hn : n ≠ 0) :
    ∃ s, TapsThenEnds env depth keycode td.customTappingTerm n s₀ s := by
  have htaps : ∀ n, ∃ s, Taps env depth keycode td.customTappingTerm n false s₀ s := by
    intro n
    induction n with
    | zero => exact ⟨s₀, .rest s₀⟩
    | succ n ih =>
      obtain ⟨s, hs⟩ := ih
      obtain ⟨t, ht, htapped⟩ := (hs.tapped hp hrest hactive).press hp depth (hkey s.log true)
      obtain ⟨u, hu, -⟩ := htapped.release hp depth (hkey t.log false)
      exact ⟨u, .release pos (.press pos hs (hkey s.log true) ht) (hkey t.log false) hu⟩
  obtain ⟨s, hs⟩ := htaps n
  have helapsed := Taps.elapse (td.customTappingTerm + 1 - (s.now - s.lastTapTime)) hs
  have htapped := helapsed.tapped hp hrest hactive
  have hover : s.now + (td.customTappingTerm + 1 - (s.now - s.lastTapTime)) - s.lastTapTime =
      td.customTappingTerm + 1 := by grind
  obtain ⟨t, ht, -⟩ := ended_of_shows (actionExec env depth) hp htapped.shows
  refine ⟨t, .lifted helapsed (.timeout ?_ ?_)⟩
  · show td.customTappingTerm < s.now + _ - s.lastTapTime
    rw [hover]
    exact hterm
  · refine (tapDanceTask_eq _ hp (htapped.active.trans (if_neg hn))).trans ?_
    rw [if_neg, if_neg, ht]
    · rw [htapped.shows.action]
      exact Bool.false_ne_true
    · rintro (hzero | hle)
      · exact hp.ne_zero (((htapped.active.trans (if_neg hn)).symm.trans hzero))
      · refine UInt16.not_le.mpr hterm (hover ▸ hle)

end Run

/-- The dance of the keycode is at rest, and none is active. -/
structure AtRest (keycode : UInt16) (s : Board) : Prop where
  active : s.activeTd = 0
  action : s.action (qkTapDanceGetIndex keycode) = .zero
  danceState : s.danceState (qkTapDanceGetIndex keycode) = .none
  waiting : ∀ r ∈ s.waiting, r.source.isOf (qkTapDanceGetIndex keycode) = false

/-- A number of taps types as many presses and releases exactly when the count does not come back to 0. -/
theorem taps_type {env : DanceEnv} {depth : Nat} {keycode : UInt16} {td : VialTapDanceEntry} {n : Nat} {s₀ s : Board}
    (hp : Plain env keycode td) (hrest : AtRest keycode s₀) (hn : 1 ≤ n)
    (h : TapsThenEnds env depth keycode td.customTappingTerm n s₀ s) :
    typed (qkTapDanceGetIndex keycode) s.log = typed (qkTapDanceGetIndex keycode) s₀.log ++ pairs td.onTap n ↔
      n ≤ 255 := by
  rw [taps_typed hp ⟨hrest.action, hrest.danceState, rfl, hrest.waiting⟩ hrest.active (Nat.ne_of_gt hn) h,
    List.append_cancel_left_eq]
  constructor
  · intro hpairs
    have hlost := pairs_inj hpairs
    omega
  · intro hle
    rw [Nat.div_eq_of_lt (by omega), Nat.sub_zero]

/-- Every key is of the first dance, which has the letter A on a tap. -/
def letterDance : DanceEnv where
  entries := [⟨0x04, 0, 0, 0, 200⟩]
  keymap _ _ _ := 0x5700
  mods _ := ⟨0, 0, 0⟩
  passes _ waiting := waiting.length
  macroCalls _ := []

theorem letterDance_plain : Plain letterDance 0x5700 ⟨0x04, 0, 0, 0, 200⟩ :=
  ⟨by decide, rfl, by decide, by decide, rfl, rfl, rfl⟩

theorem initial_shows : Shows 0x5700 .zero .none [] .initial := ⟨rfl, rfl, rfl, List.forall_mem_nil _⟩

/-- The third tap types three, the two behind it one each. -/
theorem taps_type_five : ∃ s, TapsThenEnds letterDance 1 0x5700 200 5 .initial s ∧
    typed 0 s.log = typed 0 Board.initial.log ++ pairs 0x04 5 := by
  obtain ⟨s, hs⟩ := exists_tapsThenEnds letterDance_plain 1 0 (fun _ _ => rfl) (by decide)
    initial_shows rfl 5 (by decide)
  exact ⟨s, hs, (taps_type letterDance_plain ⟨rfl, rfl, rfl, List.forall_mem_nil _⟩ (by decide) hs).mpr (by decide)⟩

/-- The tap that takes the count back to 0 types nothing. -/
theorem tap_256_lost : ∃ s, TapsThenEnds letterDance 1 0x5700 200 256 .initial s ∧
    typed 0 s.log ≠ typed 0 Board.initial.log ++ pairs 0x04 256 := by
  obtain ⟨s, hs⟩ := exists_tapsThenEnds letterDance_plain 1 0 (fun _ _ => rfl) (by decide)
    initial_shows rfl 256 (by decide)
  refine ⟨s, hs, fun hpairs => ?_⟩
  have htyped := taps_typed letterDance_plain initial_shows rfl (by decide) hs
  exact absurd (pairs_inj (htyped.symm.trans hpairs)) (by decide)

end TapDance
end Keys
end VialQmk
