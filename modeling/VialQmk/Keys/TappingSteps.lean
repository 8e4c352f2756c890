import VialQmk.Keys.Tapping

/-!
# Keys.TappingSteps

What a call of `process_tapping` can do, once and for all: `Outcome` has one case for each way it ends,
as long as no nested call is made while a record is on its way.

* `processTapping_cases`: every call ends in one of these ways, or passes the record that came in
  straight on.
* `TapInvariant` packages the induction over the buffer, the nested calls and the run: what each way
  preserves holds in every state a run reaches (`TapInvariant.run`).
-/

namespace VialQmk
namespace Keys

variable {σ : Type}

section Growth

variable {E : TapEnv σ} {nested : Nested σ}

def Grows (nested : Nested σ) : Prop :=
  ∀ event keycode (s s' : TapState σ), nested event keycode s = some s' → s.log <+: s'.log

theorem write_log (s : TapState σ) (e : LogEntry) : s.log <+: (s.write e).log := List.prefix_append _ _

theorem runProc_grows (hn : Grows nested) (straight : Bool) (p : Proc σ) :
    ∀ {s s' : TapState σ} {c : RecordChange}, runProc nested straight p s = some (c, s') →
      s.log <+: s'.log := by
  induction p with
  | done change env =>
    intro s s' c h
    cases h
    exact List.prefix_refl _
  | exec event keycode env next ih =>
    intro s s' c h
    obtain ⟨s₁, hnested, hrest⟩ := Option.bind_eq_some_iff.mp h
    refine List.IsPrefix.trans ?_ ((hn _ _ _ _ hnested).trans (ih _ hrest))
    cases straight
    · exact write_log _ _
    · exact List.prefix_refl _

variable {s s' : TapState σ}

theorem runProc_quiet (hn : Grows nested) {p : Proc σ} {c : RecordChange}
    (h : runProc nested false p s = some (c, s')) (hq : LogEntry.reentered ∉ s'.log) :
    ∃ env, s' = { s with env := env } := by
  cases p with
  | done change env =>
    cases h
    exact ⟨env, rfl⟩
  | exec event keycode env next =>
    obtain ⟨s₁, hnested, hrest⟩ := Option.bind_eq_some_iff.mp h
    refine absurd (((hn _ _ _ _ hnested).trans (runProc_grows hn _ _ hrest)).subset ?_) hq
    simp [TapState.write]

theorem passRecord_grows (hn : Grows nested) {straight : Bool} {keyp k : Record}
    (h : passRecord E nested straight keyp s = some (k, s')) : s.log <+: s'.log := by
  obtain ⟨⟨c, s₁⟩, hrun, heq⟩ := Option.map_eq_some_iff.mp h
  cases heq
  exact (write_log _ _).trans (runProc_grows hn _ _ hrun)

theorem passRecord_quiet (hn : Grows nested) {keyp k : Record} (h : passRecord E nested false keyp s = some (k, s'))
    (hq : LogEntry.reentered ∉ s'.log) : ∃ (c : RecordChange) (env : σ), k = c.apply keyp ∧
      s' = { s with env := env, log := s.log ++ [.passed keyp] } := by
  obtain ⟨⟨c, s₁⟩, hrun, heq⟩ := Option.map_eq_some_iff.mp h
  cases heq
  obtain ⟨env, rfl⟩ := runProc_quiet hn hrun hq
  exact ⟨c, env, rfl, rfl⟩

theorem passTappingKey_grows (hn : Grows nested) (h : passTappingKey E nested s = some s') : s.log <+: s'.log := by
  obtain ⟨⟨c, s₁⟩, hrun, heq⟩ := Option.map_eq_some_iff.mp h
  cases heq
  have hgrow := runProc_grows hn _ _ hrun
  exact (write_log _ _).trans hgrow

theorem passTappingKey_quiet (hn : Grows nested) (h : passTappingKey E nested s = some s')
    (hq : LogEntry.reentered ∉ s'.log) : ∃ (c : RecordChange) (env : σ), s' = { s with
      tappingKey := c.apply s.tappingKey
      env := env
      log := s.log ++ [.passed s.tappingKey] } := by
  obtain ⟨⟨c, s₁⟩, hrun, heq⟩ := Option.map_eq_some_iff.mp h
  cases heq
  obtain ⟨env, rfl⟩ := runProc_quiet hn hrun hq
  exact ⟨c, env, rfl⟩

theorem passSynthesized_grows (hn : Grows nested) {time : UInt16} (h : passSynthesized E nested time s = some s') :
    s.log <+: s'.log := by
  obtain ⟨⟨c, s₁⟩, hrun, heq⟩ := Option.map_eq_some_iff.mp h
  cases heq
  exact (write_log _ _).trans (runProc_grows hn _ _ hrun)

def synthesizedRelease (r : Record) (time : UInt16) : Record :=
  { r with event := { r.event with time := time, pressed := false } }

theorem passSynthesized_quiet (hn : Grows nested) {time : UInt16} (h : passSynthesized E nested time s = some s')
    (hq : LogEntry.reentered ∉ s'.log) : ∃ env, s' = { s with
      env := env
      log := s.log ++ [.synthesized (synthesizedRelease s.tappingKey time)] } := by
  obtain ⟨⟨c, s₁⟩, hrun, heq⟩ := Option.map_eq_some_iff.mp h
  cases heq
  obtain ⟨env, rfl⟩ := runProc_quiet hn hrun hq
  exact ⟨env, rfl⟩

/-- The first release of the position in the buffer that lies within a term behind the press. -/
def Scanned (press : Record) (buffer : List Record) (i : Nat) : Prop :=
  ∃ term, buffer.findIdx? (fun r => decide (¬ r.IsNoEvent ∧ r.event.key = press.event.key ∧
    r.event.pressed = false ∧ (r.event.time - press.event.time).toNat < term)) = some i

theorem scanTap_grows (hn : Grows nested) (h : waitingBufferScanTap E nested s = some s') : s.log <+: s'.log := by
  unfold waitingBufferScanTap at h
  split at h
  · cases h
    exact List.prefix_refl _
  · split at h
    · cases h
      exact List.prefix_refl _
    · have hgrow := passTappingKey_grows hn h
      exact hgrow

theorem scanTap_quiet (hn : Grows nested) (h : waitingBufferScanTap E nested s = some s')
    (hq : LogEntry.reentered ∉ s'.log) :
    s' = s ∨ ∃ (i : Nat) (c : RecordChange) (env : σ), s.tappingKey.tap.count = 0 ∧
      Scanned s.tappingKey s.waitingBuffer i ∧
      s' = { s with
        tappingKey := c.apply (s.tappingKey.setCount 1)
        waitingBuffer := s.waitingBuffer.modify i fun r => r.setCount 1
        env := env
        log := s.log ++ [.passed (s.tappingKey.setCount 1)] } := by
  unfold waitingBufferScanTap at h
  split at h
  · cases h
    exact .inl rfl
  · rename_i hcount
    split at h
    · cases h
      exact .inl rfl
    · rename_i i hfind
      obtain ⟨c, env, rfl⟩ := passTappingKey_quiet hn h hq
      exact .inr ⟨i, c, env, by omega, ⟨_, hfind⟩, rfl⟩

theorem map_tapping_grows {finished : Bool} {k : Record} {x : Option (TapState σ)}
    {f : TapState σ → Bool × Record × TapState σ} (h : x.map f = some (finished, k, s'))
    (hf : ∀ s, (f s).2.2.log = s.log) (hx : ∀ s₁, x = some s₁ → s.log <+: s₁.log) : s.log <+: s'.log := by
  obtain ⟨s₁, hrun, heq⟩ := Option.map_eq_some_iff.mp h
  have hlog := hf s₁
  rw [heq] at hlog
  rw [hlog]
  exact hx s₁ hrun

theorem map_record_grows {finished : Bool} {k : Record} {x : Option (Record × TapState σ)}
    {f : Record × TapState σ → Bool × Record × TapState σ} (h : x.map f = some (finished, k, s'))
    (hf : ∀ r, (f r).2.2.log = r.2.log) (hx : ∀ r, x = some r → s.log <+: r.2.log) : s.log <+: s'.log := by
  obtain ⟨r, hrun, heq⟩ := Option.map_eq_some_iff.mp h
  have hlog := hf r
  rw [heq] at hlog
  rw [hlog]
  exact hx r hrun

section Calls

variable {live finished : Bool} {keyp k : Record} {s s' : TapState σ}

theorem unsettled_grows (hn : Grows nested)
    (h : processUnsettled E nested live keyp s = some (finished, k, s')) : s.log <+: s'.log := by
  simp only [processUnsettled] at h
  split at h
  · exact map_tapping_grows h (fun _ => rfl) (fun _ hx => (passTappingKey_grows hn hx :))
  · split at h
    · exact map_tapping_grows h (fun _ => rfl) (fun _ hx => (passTappingKey_grows hn hx :))
    · split at h
      · split at h
        · cases h
          exact List.prefix_refl _
        · exact map_record_grows h (fun _ => rfl) (fun _ hx => (passRecord_grows hn hx :))
      · split at h
        · split at h
          · exact map_tapping_grows h (fun _ => rfl) (fun _ hx => (passTappingKey_grows hn hx :))
          · cases h
            exact List.prefix_refl _
        · cases h
          exact List.prefix_refl _

theorem settled_grows (hn : Grows nested) {within : Bool}
    (h : processSettled E nested live within keyp s = some (finished, k, s')) : s.log <+: s'.log := by
  simp only [processSettled] at h
  split at h
  · exact map_record_grows h (fun _ => rfl) (fun _ hx => (passRecord_grows hn hx :))
  · split at h
    · obtain ⟨s₁, hreleased, hscan⟩ := Option.bind_eq_some_iff.mp h
      have hsynth : s.log <+: s₁.log := by
        split at hreleased
        · exact passSynthesized_grows hn hreleased
        · cases hreleased
          exact List.prefix_refl _
      exact hsynth.trans (map_tapping_grows hscan (fun _ => rfl) (fun _ hx => (scanTap_grows hn hx :)))
    · exact map_record_grows h (fun _ => rfl) (fun _ hx => (passRecord_grows hn hx :))

theorem released_grows (hn : Grows nested)
    (h : processReleased E nested live keyp s = some (finished, k, s')) : s.log <+: s'.log := by
  simp only [processReleased] at h
  split at h
  · split at h
    · split at h
      · exact map_record_grows h (fun _ => rfl) (fun _ hx => (passRecord_grows hn hx :))
      · cases h
        exact List.prefix_refl _
    · split at h
      · exact map_tapping_grows h (fun _ => rfl) (fun _ hx => (scanTap_grows hn hx :))
      · exact map_record_grows h (fun _ => rfl) (fun _ hx => (passRecord_grows hn hx :))
  · exact map_record_grows h (fun _ => rfl) (fun _ hx => (passRecord_grows hn hx :))

theorem processTapping_grows (hn : Grows nested)
    (h : processTapping E nested live keyp s = some (finished, k, s')) : s.log <+: s'.log := by
  simp only [processTapping] at h
  split at h
  · split at h
    · cases h
      exact List.prefix_refl _
    · split at h
      · exact map_tapping_grows h (fun _ => rfl) (fun _ hx => (scanTap_grows hn hx :))
      · exact map_record_grows h (fun _ => rfl) (fun _ hx => (passRecord_grows hn hx :))
  · split at h
    · split at h
      · split at h
        · cases h
          exact List.prefix_refl _
        · split at h
          · exact unsettled_grows hn h
          · exact settled_grows hn h
      · split at h
        · exact map_tapping_grows h (fun _ => rfl) (fun _ hx => (passTappingKey_grows hn hx :))
        · split at h
          · cases h
            exact List.prefix_refl _
          · exact settled_grows hn h
    · split at h
      · split at h
        · cases h
          exact List.prefix_refl _
        · exact released_grows hn h
      · cases h
        exact List.prefix_refl _

theorem processWaitingBuffer_grows (hn : Grows nested) (n : Nat) :
    ∀ {s s' : TapState σ}, processWaitingBuffer E nested n s = some s' → s.log <+: s'.log := by
  induction n with
  | zero =>
    intro s s' h
    simp only [processWaitingBuffer, Option.ite_none_right_eq_some, Option.some.injEq] at h
    exact h.2 ▸ List.prefix_refl _
  | succ n ih =>
    intro s s' h
    simp only [processWaitingBuffer] at h
    split at h
    · cases h
      exact List.prefix_refl _
    · obtain ⟨⟨finished, k, s₁⟩, hrun, hrest⟩ := Option.bind_eq_some_iff.mp h
      refine (processTapping_grows hn hrun).trans ?_
      cases finished with
      | true =>
        have hgrow := ih hrest
        exact hgrow
      | false =>
        cases hrest
        exact List.prefix_refl _

theorem keep_cases (E : TapEnv σ) (keyp : Record) (s : TapState σ) :
    (keyp.IsNoEvent ∧ keepRecord E keyp s = s) ∨
    (¬ keyp.IsNoEvent ∧
      keepRecord E keyp s = { s with waitingBuffer := s.waitingBuffer ++ [keyp] }) ∨
    (¬ keyp.IsNoEvent ∧
      keepRecord E keyp s = ⟨.zero, [], E.clearKeyboard s.env, s.log ++ [.overflow]⟩) := by
  by_cases htick : keyp.IsNoEvent
  · exact .inl ⟨htick, by rw [keepRecord, waitingBufferEnq, if_pos htick]⟩
  · by_cases hfull : s.waitingBuffer.length + 1 = waitingBufferSize
    · exact .inr (.inr ⟨htick, by rw [keepRecord, waitingBufferEnq, if_neg htick, if_pos hfull]⟩)
    · exact .inr (.inl ⟨htick, by rw [keepRecord, waitingBufferEnq, if_neg htick, if_neg hfull]⟩)

theorem keep_grows (keyp : Record) (s : TapState σ) : s.log <+: (keepRecord E keyp s).log := by
  rcases keep_cases E keyp s with ⟨-, heq⟩ | ⟨-, heq⟩ | ⟨-, heq⟩
  · exact ⟨[], (List.append_nil _).trans (congrArg TapState.log heq).symm⟩
  · exact ⟨[], (List.append_nil _).trans (congrArg TapState.log heq).symm⟩
  · exact ⟨[.overflow], (congrArg TapState.log heq).symm⟩

end Calls

end Growth

section Outcomes

variable (E : TapEnv σ)

/-- The record is passed on as it is, with the tapping key that stays behind. -/
inductive Passes (s : TapState σ) (keyp : Record) : Record → Prop where
  | idle : s.tappingKey.IsNoEvent → Passes s keyp s.tappingKey
  | untyped : s.tappingKey.Unsettled → keyp.event.pressed = false →
      ¬ s.tappingKey.IsTapping keyp → waitingBufferTyped s keyp.event = false →
      Passes s keyp s.tappingKey
  | settled : s.tappingKey.Settled → ¬ (s.tappingKey.IsTapping keyp ∧ keyp.event.pressed = false) →
      Passes s keyp s.tappingKey
  | released : s.tappingKey.Released → WithinTappingTerm E s keyp.event →
      keyp.event.pressed = false → Passes s keyp s.tappingKey
  | interrupts : s.tappingKey.Released → WithinTappingTerm E s keyp.event →
      keyp.event.pressed = true → ¬ s.tappingKey.IsTapping keyp →
      Passes s keyp s.tappingKey.setInterrupted

/-- A press becomes the tapping key, behind the release made up for the one before. -/
inductive Starts (s : TapState σ) (keyp : Record) : List LogEntry → Prop where
  | idle : s.tappingKey.IsNoEvent → Starts s keyp []
  | settled : s.tappingKey.Settled → s.tappingKey.tap.count ≤ 1 → Starts s keyp []
  | synthesized : s.tappingKey.Settled → 1 < s.tappingKey.tap.count →
      Starts s keyp [.synthesized (synthesizedRelease s.tappingKey keyp.event.time)]
  | released : s.tappingKey.Released → WithinTappingTerm E s keyp.event →
      ¬ s.tappingKey.IsTapping keyp → Starts s keyp []

theorem scanned_split {press : Record} {buffer : List Record} {i : Nat}
    (h : Scanned press buffer i) :
    ∃ front r rest, buffer = front ++ r :: rest ∧
      (buffer.modify i fun r => r.setCount 1) = front ++ r.setCount 1 :: rest ∧
      ¬ r.IsNoEvent ∧ r.event.key = press.event.key ∧ r.event.pressed = false ∧
      ∃ term, (r.event.time - press.event.time).toNat < term ∧
        ∀ q ∈ front, ¬ (¬ q.IsNoEvent ∧ q.event.key = press.event.key ∧ q.event.pressed = false ∧
          (q.event.time - press.event.time).toNat < term) := by
  obtain ⟨term, hfind⟩ := h
  obtain ⟨hi, hscan, hfront⟩ := List.findIdx?_eq_some_iff_getElem.mp hfind
  obtain ⟨front, r, rest, hbuffer, hlen, hmodify⟩ :=
    List.exists_of_modify (fun r : Record => r.setCount 1) hi
  have hr : buffer[i] = r := by
    simp only [hbuffer, ← hlen, List.getElem_append_right, Nat.le_refl, Nat.sub_self,
      List.getElem_cons_zero]
  rw [hr] at hscan
  obtain ⟨hevent, hkey, hup, hterm⟩ := of_decide_eq_true hscan
  refine ⟨front, r, rest, hbuffer, hmodify, hevent, hkey, hup, term, hterm, fun q hq hcand => ?_⟩
  obtain ⟨j, hj, rfl⟩ := List.mem_iff_getElem.mp hq
  refine hfront j (hlen ▸ hj) (decide_eq_true ?_)
  simpa only [hbuffer, List.getElem_append_left hj] using hcand

/-- How `process_tapping(keyp)` ends: finished or not, the record behind it, and the state. -/
inductive Outcome (s : TapState σ) (keyp : Record) : Bool → Record → TapState σ → Prop where
  | tick : keyp.IsNoEvent → Outcome s keyp true keyp s
  | wait (tk : Record) : s.tappingKey.Unsettled → ¬ keyp.IsNoEvent →
      ¬ (s.tappingKey.IsTapping keyp ∧ keyp.event.pressed = false) →
      tk = s.tappingKey ∨ tk = s.tappingKey.setInterrupted →
      Outcome s keyp false keyp (s.setTapping tk)
  | expire : s.tappingKey.Released → ¬ WithinTappingTerm E s keyp.event →
      Outcome s keyp false keyp (s.setTapping .zero)
  | hold (tk : Record) (env : σ) : s.tappingKey.Unsettled →
      tk = s.tappingKey ∨ tk = s.tappingKey.setInterrupted →
      Outcome s keyp false keyp
        { s with tappingKey := .zero, env := env, log := s.log ++ [.passed tk] }
  | firstTap (c : RecordChange) (env : σ) : s.tappingKey.Unsettled → ¬ keyp.IsNoEvent →
      s.tappingKey.IsTapping keyp → keyp.event.pressed = false →
      Outcome s keyp false { keyp with tap := (c.apply (s.tappingKey.setCount 1)).tap }
        { s with
          tappingKey := c.apply (s.tappingKey.setCount 1)
          env := env
          log := s.log ++ [.passed (s.tappingKey.setCount 1)] }
  | pass (tk : Record) (c : RecordChange) (env : σ) : ¬ keyp.IsNoEvent → Passes E s keyp tk →
      Outcome s keyp true (c.apply keyp)
        { s with tappingKey := tk, env := env, log := s.log ++ [.passed keyp] }
  | tapRelease (r tk : Record) (c : RecordChange) (env : σ) : s.tappingKey.Settled →
      ¬ keyp.IsNoEvent → s.tappingKey.IsTapping keyp → keyp.event.pressed = false →
      r = { keyp with tap := s.tappingKey.tap } → tk = c.apply r ∨ tk = .zero →
      Outcome s keyp true (c.apply r)
        { s with tappingKey := tk, env := env, log := s.log ++ [.passed r] }
  | sequential (r : Record) (count : Nat) (c : RecordChange) (env : σ) : s.tappingKey.Released →
      WithinTappingTerm E s keyp.event → ¬ keyp.IsNoEvent → s.tappingKey.IsTapping keyp →
      keyp.event.pressed = true → 1 < count →
      r = { keyp with tap := ⟨s.tappingKey.tap.interrupted, count⟩ } →
      Outcome s keyp true (c.apply r)
        { s with tappingKey := c.apply r, env := env, log := s.log ++ [.passed r] }
  | restart : s.tappingKey.Released → WithinTappingTerm E s keyp.event → ¬ keyp.IsNoEvent →
      s.tappingKey.IsTapping keyp → keyp.event.pressed = true →
      Outcome s keyp true keyp (s.setTapping keyp)
  | start (made : List LogEntry) (env : σ) : Starts E s keyp made → ¬ keyp.IsNoEvent →
      keyp.event.pressed = true →
      Outcome s keyp true keyp { s with tappingKey := keyp, env := env, log := s.log ++ made }
  | startTap (made : List LogEntry) (i : Nat) (c : RecordChange) (env : σ) : Starts E s keyp made →
      ¬ keyp.IsNoEvent → keyp.event.pressed = true → keyp.tap.count = 0 →
      Scanned keyp s.waitingBuffer i →
      Outcome s keyp true keyp
        { s with
          tappingKey := c.apply (keyp.setCount 1)
          waitingBuffer := s.waitingBuffer.modify i fun r => r.setCount 1
          env := env
          log := s.log ++ made ++ [.passed (keyp.setCount 1)] }

/-- The record that came in is passed on, as the last thing the call does. -/
def PassedOn (nested : Nested σ) (s : TapState σ) (keyp k : Record) (s' : TapState σ) : Prop :=
  ¬ keyp.IsNoEvent ∧ ∃ tk, Passes E s keyp tk ∧
    passRecord E nested true keyp (s.setTapping tk) = some (k, s')

end Outcomes

section Cases

variable {E : TapEnv σ} {nested : Nested σ} {live finished : Bool} {keyp k : Record}
  {s s' : TapState σ}

/-- A record passed on as the last thing: straight if it came in just now, in peace otherwise. -/
theorem pass_cases (hn : Grows nested) {tk : Record} (hk : ¬ keyp.IsNoEvent) (hp : Passes E s keyp tk)
    (h : (passRecord E nested live keyp (s.setTapping tk)).map (fun (keyp, s) => (true, keyp, s)) =
      some (finished, k, s')) (hq : LogEntry.reentered ∉ s'.log) :
    Outcome E s keyp finished k s' ∨
      (live = true ∧ finished = true ∧ PassedOn E nested s keyp k s') := by
  obtain ⟨⟨k', s₁⟩, hrun, heq⟩ := Option.map_eq_some_iff.mp h
  cases heq
  cases live with
  | true => exact .inr ⟨rfl, rfl, hk, tk, hp, hrun⟩
  | false =>
    obtain ⟨c, env, rfl, rfl⟩ := passRecord_quiet hn hrun hq
    exact .inl (.pass tk c env hk hp)

theorem unsettled_cases (hn : Grows nested) (hu : s.tappingKey.Unsettled) (hk : ¬ keyp.IsNoEvent)
    (h : processUnsettled E nested live keyp s = some (finished, k, s'))
    (hq : LogEntry.reentered ∉ s'.log) :
    Outcome E s keyp finished k s' ∨
      (live = true ∧ finished = true ∧ PassedOn E nested s keyp k s') := by
  simp only [processUnsettled] at h
  split at h
  · rename_i htap
    obtain ⟨s₁, hrun, heq⟩ := Option.map_eq_some_iff.mp h
    cases heq
    obtain ⟨c, env, rfl⟩ := passTappingKey_quiet hn hrun hq
    exact .inl (.firstTap c env hu hk htap.1 htap.2)
  · rename_i htap
    split at h
    · obtain ⟨s₁, hrun, heq⟩ := Option.map_eq_some_iff.mp h
      cases heq
      obtain ⟨c, env, rfl⟩ := passTappingKey_quiet hn hrun hq
      exact .inl (.hold _ env hu (.inl rfl))
    · split at h
      · rename_i hup
        split at h
        · cases h
          exact .inl (.wait _ hu hk htap (.inl rfl))
        · refine pass_cases hn hk (.untyped hu hup.1 (fun hkey => htap ⟨hkey, hup.1⟩) ?_) h hq
          simpa using hup.2
      · split at h
        · split at h
          · obtain ⟨s₁, hrun, heq⟩ := Option.map_eq_some_iff.mp h
            cases heq
            obtain ⟨c, env, rfl⟩ := passTappingKey_quiet hn hrun hq
            exact .inl (.hold _ env hu (.inr rfl))
          · cases h
            exact .inl (.wait _ hu hk htap (.inr rfl))
        · cases h
          exact .inl (.wait _ hu hk htap (.inl rfl))

theorem start_cases (env : σ) (hn : Grows nested) {made : List LogEntry} (hk : ¬ keyp.IsNoEvent)
    (hp : keyp.event.pressed = true) (hs : Starts E s keyp made)
    (h : (waitingBufferScanTap E nested
      { s with tappingKey := keyp, env := env, log := s.log ++ made }).map
        (fun s => (true, keyp, s)) = some (finished, k, s')) (hq : LogEntry.reentered ∉ s'.log) :
    Outcome E s keyp finished k s' := by
  obtain ⟨s₁, hrun, heq⟩ := Option.map_eq_some_iff.mp h
  cases heq
  rcases scanTap_quiet hn hrun hq with rfl | ⟨i, c, env', hcount, hscan, rfl⟩
  · exact .start made env hs hk hp
  · exact .startTap made i c env' hs hk hp hcount hscan

theorem settled_cases (hn : Grows nested) {within : Bool} (hu : s.tappingKey.Settled)
    (hk : ¬ keyp.IsNoEvent) (h : processSettled E nested live within keyp s = some (finished, k, s'))
    (hq : LogEntry.reentered ∉ s'.log) :
    Outcome E s keyp finished k s' ∨
      (live = true ∧ finished = true ∧ PassedOn E nested s keyp k s') := by
  simp only [processSettled] at h
  split at h
  · rename_i htap
    obtain ⟨⟨k', s₁⟩, hrun, heq⟩ := Option.map_eq_some_iff.mp h
    cases heq
    obtain ⟨c, env, rfl, rfl⟩ := passRecord_quiet hn hrun hq
    refine .inl (.tapRelease _ _ c env hu hk htap.1 htap.2 rfl ?_)
    cases within
    · exact .inr rfl
    · exact .inl rfl
  · rename_i htap
    split at h
    · rename_i hstart
      obtain ⟨s₁, hreleased, hscan⟩ := Option.bind_eq_some_iff.mp h
      obtain ⟨s₂, hrun, heq⟩ := Option.map_eq_some_iff.mp hscan
      have hq₁ : LogEntry.reentered ∉ s₁.log := by
        cases heq
        exact fun hmem => hq ((scanTap_grows hn hrun).subset hmem)
      split at hreleased
      · rename_i hcount
        obtain ⟨env, rfl⟩ := passSynthesized_quiet hn hreleased hq₁
        exact .inl (start_cases _ hn hk hstart.2 (.synthesized hu hcount) hscan hq)
      · rename_i hcount
        cases hreleased
        refine .inl (start_cases s.env hn hk hstart.2 (.settled hu (by omega)) ?_ hq)
        rw [List.append_nil]
        exact hscan
    · exact pass_cases hn hk (.settled hu htap) h hq

theorem released_cases (hn : Grows nested) (hu : s.tappingKey.Released)
    (hw : WithinTappingTerm E s keyp.event) (hk : ¬ keyp.IsNoEvent)
    (h : processReleased E nested live keyp s = some (finished, k, s'))
    (hq : LogEntry.reentered ∉ s'.log) :
    Outcome E s keyp finished k s' ∨
      (live = true ∧ finished = true ∧ PassedOn E nested s keyp k s') := by
  simp only [processReleased] at h
  split at h
  · rename_i hp
    split at h
    · rename_i htap
      split at h
      · rename_i hquick
        obtain ⟨⟨k', s₁⟩, hrun, heq⟩ := Option.map_eq_some_iff.mp h
        cases heq
        obtain ⟨c, env, rfl, rfl⟩ := passRecord_quiet hn hrun hq
        left
        by_cases hcount : s.tappingKey.tap.count < 15
        · rw [if_pos hcount]
          exact .sequential _ (s.tappingKey.tap.count + 1) c env hu hw hk htap hp (by omega) rfl
        · rw [if_neg hcount]
          exact .sequential _ s.tappingKey.tap.count c env hu hw hk htap hp (by omega) rfl
      · cases h
        exact .inl (.restart hu hw hk htap hp)
    · rename_i htap
      split at h
      · refine .inl (start_cases s.env hn hk hp (.released hu hw htap) ?_ hq)
        rw [List.append_nil]
        exact h
      · exact pass_cases hn hk (.interrupts hu hw hp htap) h hq
  · rename_i hp
    exact pass_cases hn hk (.released hu hw (by simpa using hp)) h hq

/-- Every call of `process_tapping` without a nested call on the way ends in one of these ways. -/
theorem processTapping_cases (hn : Grows nested)
    (h : processTapping E nested live keyp s = some (finished, k, s'))
    (hq : LogEntry.reentered ∉ s'.log) :
    Outcome E s keyp finished k s' ∨
      (live = true ∧ finished = true ∧ PassedOn E nested s keyp k s') := by
  simp only [processTapping] at h
  split at h
  · rename_i hidle
    split at h
    · rename_i hk
      cases h
      exact .inl (.tick hk)
    · rename_i hk
      split at h
      · rename_i hstart
        refine .inl (start_cases (E.processRecordTapHint s.env keyp) hn hk hstart.1
          (.idle hidle) ?_ hq)
        rw [List.append_nil]
        exact h
      · exact pass_cases hn hk (.idle hidle) h hq
  · rename_i hidle
    split at h
    · rename_i hp
      split at h
      · split at h
        · rename_i hk
          cases h
          exact .inl (.tick hk)
        · rename_i hk
          split at h
          · rename_i hcount
            exact unsettled_cases hn ⟨hidle, hp, hcount⟩ hk h hq
          · rename_i hcount
            exact settled_cases hn ⟨hidle, hp, hcount⟩ hk h hq
      · split at h
        · rename_i hcount
          obtain ⟨s₁, hrun, heq⟩ := Option.map_eq_some_iff.mp h
          cases heq
          obtain ⟨c, env, rfl⟩ := passTappingKey_quiet hn hrun hq
          exact .inl (.hold _ env ⟨hidle, hp, hcount⟩ (.inl rfl))
        · rename_i hcount
          split at h
          · rename_i hk
            cases h
            exact .inl (.tick hk)
          · rename_i hk
            exact settled_cases hn ⟨hidle, hp, hcount⟩ hk h hq
    · rename_i hp
      have hreleased : s.tappingKey.Released := ⟨hidle, by simpa using hp⟩
      split at h
      · rename_i hw
        split at h
        · rename_i hk
          cases h
          exact .inl (.tick hk)
        · rename_i hk
          exact released_cases hn hreleased hw hk h hq
      · rename_i hw
        cases h
        exact .inl (.expire hreleased hw)

end Cases

/-- What the ways a call ends have to preserve, in runs whose log is `clean`: `I` between calls, `F`
while a record that came in is on its way, and `W` behind a call that did not finish it. -/
structure TapInvariant (E : TapEnv σ) (clean : List LogEntry → Prop) (I : TapState σ → Prop)
    (F W : Record → TapState σ → Prop) : Prop where
  clean_of_prefix : ∀ {l l' : List LogEntry}, l <+: l' → clean l' → clean l
  quiet : ∀ {l : List LogEntry}, clean l → LogEntry.reentered ∉ l
  environment : ∀ {s : TapState σ} (env : σ), I s → I { s with env := env }
  tick : ∀ {s : TapState σ} {event : KeyEvent} {keycode : Nat}, I s → event.type = .tick →
    F (.raw event keycode) s
  given : ∀ {s : TapState σ} {event : KeyEvent} {keycode : Nat}, I s → event.type ≠ .tick →
    ∀ e, e = LogEntry.given (.raw event keycode) s.tappingKey s.waitingBuffer
      (decide (KeepsBack E s event)) →
    clean (s.log ++ [e]) → F (.raw event keycode) (s.write e)
  passedOn : ∀ {s : TapState σ} {keyp tk : Record}, F keyp s → ¬ keyp.IsNoEvent →
    Passes E s keyp tk → clean (s.log ++ [.passed keyp]) →
    I ((s.setTapping tk).write (.passed keyp))
  finished : ∀ {s s' : TapState σ} {keyp k : Record}, F keyp s → Outcome E s keyp true k s' →
    clean s'.log → I s'
  unfinished : ∀ {s s' : TapState σ} {keyp k : Record}, F keyp s → Outcome E s keyp false k s' →
    clean s'.log → W k s'
  dropTick : ∀ {s : TapState σ} {k : Record}, W k s → k.IsNoEvent → I s
  enqueue : ∀ {s : TapState σ} {k : Record}, W k s → ¬ k.IsNoEvent →
    I { s with waitingBuffer := s.waitingBuffer ++ [k] }
  overflow : ∀ {s : TapState σ} {k : Record} (env : σ), W k s → ¬ k.IsNoEvent →
    clean (s.log ++ [.overflow]) → I ⟨.zero, [], env, s.log ++ [.overflow]⟩
  pop : ∀ {s s' : TapState σ} {keyp k : Record} {rest : List Record}, I s →
    s.waitingBuffer = keyp :: rest → Outcome E s keyp true k s' → clean s'.log →
    I { s' with waitingBuffer := s'.waitingBuffer.tail }
  put : ∀ {s s' : TapState σ} {keyp k : Record} {rest : List Record}, I s →
    s.waitingBuffer = keyp :: rest → Outcome E s keyp false k s' → clean s'.log →
    I { s' with waitingBuffer := s'.waitingBuffer.set 0 k }

namespace TapInvariant

variable {E : TapEnv σ} {clean : List LogEntry → Prop} {I : TapState σ → Prop}
  {F W : Record → TapState σ → Prop} {nested : Nested σ}

def Preserves (clean : List LogEntry → Prop) (I : TapState σ → Prop) (nested : Nested σ) : Prop :=
  ∀ event keycode (s s' : TapState σ), nested event keycode s = some s' → clean s'.log → I s → I s'

theorem runProc_straight (hinv : TapInvariant E clean I F W) (hn : Grows nested)
    (hp : Preserves clean I nested) (p : Proc σ) :
    ∀ {s s' : TapState σ} {c : RecordChange}, runProc nested true p s = some (c, s') →
      clean s'.log → I s → I s' := by
  induction p with
  | done change env =>
    intro s s' c h _ hi
    cases h
    exact hinv.environment env hi
  | exec event keycode env next ih =>
    intro s s' c h hc hi
    obtain ⟨s₁, hnested, hrest⟩ := Option.bind_eq_some_iff.mp h
    refine ih _ hrest hc (hp _ _ _ _ hnested ?_ (hinv.environment env hi))
    exact hinv.clean_of_prefix (runProc_grows hn _ _ hrest) hc

theorem passedOn_preserves (hinv : TapInvariant E clean I F W) (hn : Grows nested)
    (hp : Preserves clean I nested) {keyp k : Record} {s s' : TapState σ} (hf : F keyp s)
    (h : PassedOn E nested s keyp k s') (hc : clean s'.log) : I s' := by
  obtain ⟨hk, tk, hpass, hrun⟩ := h
  obtain ⟨⟨c, s₁⟩, hproc, heq⟩ := Option.map_eq_some_iff.mp hrun
  cases heq
  refine hinv.runProc_straight hn hp _ hproc hc (hinv.passedOn hf hk hpass ?_)
  exact hinv.clean_of_prefix (runProc_grows hn _ _ hproc) hc

theorem buffer_preserves (hinv : TapInvariant E clean I F W) (hn : Grows nested) (n : Nat) :
    ∀ {s s' : TapState σ}, processWaitingBuffer E nested n s = some s' → clean s'.log → I s →
      I s' := by
  induction n with
  | zero =>
    intro s s' h _ hi
    simp only [processWaitingBuffer, Option.ite_none_right_eq_some, Option.some.injEq] at h
    rwa [← h.2]
  | succ n ih =>
    intro s s' h hc hi
    simp only [processWaitingBuffer] at h
    split at h
    · cases h
      exact hi
    · rename_i keyp rest hbuffer
      obtain ⟨⟨finished, k, s₁⟩, hrun, hrest⟩ := Option.bind_eq_some_iff.mp h
      have hc₁ : clean s₁.log := by
        cases finished with
        | true =>
          have hgrow := processWaitingBuffer_grows hn n hrest
          exact hinv.clean_of_prefix hgrow hc
        | false =>
          cases hrest
          exact hc
      rcases processTapping_cases hn hrun (hinv.quiet hc₁) with hout | ⟨hlive, -, -⟩
      · cases finished with
        | true => exact ih hrest hc (hinv.pop hi hbuffer hout hc₁)
        | false =>
          cases hrest
          exact hinv.put hi hbuffer hout hc₁
      · cases hlive

theorem action_grows (hn : Grows nested) {rounds : Nat} {keyp : Record} {s s' : TapState σ}
    (h : actionTappingProcess E nested rounds keyp s = some s') : s.log <+: s'.log := by
  obtain ⟨⟨finished, k, s₁⟩, hrun, hrest⟩ := Option.bind_eq_some_iff.mp h
  have hgiven : s.log <+: s₁.log := by
    refine List.IsPrefix.trans ?_ (processTapping_grows hn hrun)
    split
    · exact List.prefix_refl _
    · exact write_log _ _
  refine hgiven.trans (List.IsPrefix.trans ?_ (processWaitingBuffer_grows hn _ hrest))
  cases finished with
  | true => exact List.prefix_refl _
  | false => exact keep_grows _ _

theorem action_preserves (hinv : TapInvariant E clean I F W) (hn : Grows nested)
    (hp : Preserves clean I nested) {rounds : Nat} {event : KeyEvent} {keycode : Nat}
    {s s' : TapState σ} (h : actionTappingProcess E nested rounds (.raw event keycode) s = some s') (hc : clean s'.log)
    (hi : I s) : I s' := by
  obtain ⟨⟨finished, k, s₁⟩, hrun, hrest⟩ := Option.bind_eq_some_iff.mp h
  have hgrow := processWaitingBuffer_grows hn _ hrest
  have hc₁ : clean s₁.log := by
    refine hinv.clean_of_prefix (List.IsPrefix.trans ?_ hgrow) hc
    cases finished with
    | true => exact List.prefix_refl _
    | false => exact keep_grows _ _
  -- The record on its way, in the state with its entry in the log.
  have hf : F (.raw event keycode) (if (Record.raw event keycode).IsNoEvent then s
      else s.write (.given (.raw event keycode) s.tappingKey s.waitingBuffer
        (decide (KeepsBack E s event)))) := by
    split
    · rename_i htick
      exact hinv.tick hi htick
    · rename_i htick
      refine hinv.given hi htick _ rfl (hinv.clean_of_prefix ?_ hc₁)
      have hgiven := processTapping_grows hn hrun
      rw [if_neg htick] at hgiven
      exact hgiven
  rcases processTapping_cases hn hrun (hinv.quiet hc₁) with hout | ⟨-, rfl, hpass⟩
  · cases finished with
    | true => exact hinv.buffer_preserves hn _ hrest hc (hinv.finished hf hout hc₁)
    | false =>
      refine hinv.buffer_preserves hn _ hrest hc ?_
      have hk := hinv.unfinished hf hout hc₁
      rcases keep_cases E k s₁ with ⟨htick, heq⟩ | ⟨htick, heq⟩ | ⟨htick, heq⟩
      · rw [if_neg Bool.false_ne_true, heq]
        exact hinv.dropTick hk htick
      · rw [if_neg Bool.false_ne_true, heq]
        exact hinv.enqueue hk htick
      · rw [if_neg Bool.false_ne_true, heq] at hgrow ⊢
        exact hinv.overflow _ hk htick (hinv.clean_of_prefix hgrow hc)
  · exact hinv.buffer_preserves hn _ hrest hc (hinv.passedOn_preserves hn hp hf hpass hc₁)

theorem exec_grows (fuel : Nat) : Grows (execTapping E fuel) := by
  induction fuel with
  | zero =>
    intro event keycode s s' h
    cases h
  | succ fuel ih => exact fun event keycode s s' h => action_grows ih h

theorem exec_preserves (hinv : TapInvariant E clean I F W) (fuel : Nat) :
    Preserves clean I (execTapping E fuel) := by
  induction fuel with
  | zero =>
    intro event keycode s s' h
    cases h
  | succ fuel ih =>
    exact fun event keycode s s' h hc hi => hinv.action_preserves (exec_grows fuel) ih h hc hi

theorem run_grows (fuel : Nat) (steps : List (TapStep σ)) :
    ∀ {s s' : TapState σ}, runTapping E fuel s steps = some s' → s.log <+: s'.log := by
  induction steps with
  | nil =>
    intro s s' h
    cases h
    exact List.prefix_refl _
  | cons step steps ih =>
    intro s s' h
    rw [runTapping, List.foldlM_cons] at h
    obtain ⟨s₁, hstep, hrest⟩ := Option.bind_eq_some_iff.mp h
    refine List.IsPrefix.trans ?_ (ih hrest)
    cases step with
    | event e keycode => exact exec_grows fuel _ _ _ _ hstep
    | environment change =>
      cases hstep
      exact List.prefix_refl _

theorem run (hinv : TapInvariant E clean I F W) (fuel : Nat) (steps : List (TapStep σ)) :
    ∀ {s s' : TapState σ}, runTapping E fuel s steps = some s' → clean s'.log → I s → I s' := by
  induction steps with
  | nil =>
    intro s s' h _ hi
    cases h
    exact hi
  | cons step steps ih =>
    intro s s' h hc hi
    rw [runTapping, List.foldlM_cons] at h
    obtain ⟨s₁, hstep, hrest⟩ := Option.bind_eq_some_iff.mp h
    refine ih hrest hc ?_
    have hc₁ := hinv.clean_of_prefix (run_grows fuel steps hrest) hc
    cases step with
    | event e keycode => exact hinv.exec_preserves fuel _ _ _ _ hstep hc₁ hi
    | environment change =>
      cases hstep
      exact hinv.environment _ hi

end TapInvariant

end Keys
end VialQmk
