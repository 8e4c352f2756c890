import VialQmk.Split.RgbLight

/-!
# Split.RgbSync

The RGB light settings on the way from the master to the slave. The master sends them with their flags into
the slave's shared memory, where a transfer replaces the one before; the slave's handler takes the flagged
settings over and clears the flags there.

* `rgb_light_in_step`: in every run whose steps are all `Kept`, once no flag is set the slave has the settings
  of the last successful transfer.
* `pending_mode_overwritten`: a transfer with the flag of the colour alone takes the flag of a new mode away
  before the slave has seen it.
-/

namespace VialQmk
namespace Split

open Lib

variable {w : Nat} (b : RgbBuild)

/-- The master's settings, the slave's shared memory, the slave's settings, and the message of the last
successful transfer. -/
abbrev RgbHalves (w : Nat) := Link (Rgb w)

/-- What becomes of a transfer: the message can reach the slave and the acknowledgement be lost. -/
inductive Outcome where
  | lost
  | unacknowledged
  | acknowledged
deriving DecidableEq, Repr

inductive RgbEvent where
  | change (c : Rgb.Change)
  | transfer (throttleElapsed : Bool) (outcome : Outcome)
  | slave
deriving DecidableEq, Repr

namespace RgbHalves

def start (raw raw' : RgbConfig) : RgbHalves w := ⟨Rgb.init b raw, Rgb.zero, Rgb.init b raw', none⟩

def sends (s : RgbHalves w) (throttleElapsed : Bool) : Bool :=
  throttleElapsed || s.owner.changeFlags ≠ {}

def rgblightHandlersMaster (s : RgbHalves w) (throttleElapsed : Bool) (outcome : Outcome) : RgbHalves w :=
  if sends s throttleElapsed then
    match outcome with
    | .lost => s
    | .unacknowledged => { s with wire := s.owner }
    | .acknowledged => { s with wire := s.owner, owner := s.owner.clearChangeFlags, sent := some s.owner }
  else { s with owner := s.owner.clearChangeFlags }

def rgblightHandlersSlave (s : RgbHalves w) : RgbHalves w :=
  { s with
    wire := s.wire.clearChangeFlags
    other := if s.wire.changeFlags ≠ {} then Rgb.updateSync b s.wire s.other else s.other }

def step (s : RgbHalves w) : RgbEvent → RgbHalves w
  | .change c => { s with owner := s.owner.change b c }
  | .transfer throttleElapsed outcome => rgblightHandlersMaster s throttleElapsed outcome
  | .slave => rgblightHandlersSlave b s

def run (s : RgbHalves w) (events : List RgbEvent) : RgbHalves w := events.foldl (step b) s

/-- The steps that lose nothing: a change flags what it changes; a transfer that arrives flags again what the
slave has not taken over yet; the slave has what a message of these flags cannot tell it. -/
def Kept (s : RgbHalves w) : RgbEvent → Prop
  | .change c => c.Fits b s.owner
  | .transfer throttleElapsed outcome =>
    sends s throttleElapsed = true → outcome ≠ .lost → (Rgb.settings w).Keeps s
  | .slave => Rgb.TakesOver b s.wire s.other

def KeptRun (s : RgbHalves w) : List RgbEvent → Prop
  | [] => True
  | e :: events => Kept b s e ∧ KeptRun (step b s e) events

variable {b}

/-- The halves are in step, and the settings of the master and of its message fit together. -/
structure Good (b : RgbBuild) (s : RgbHalves w) : Prop where
  inStep : (Rgb.settings w).InStep s
  owner : Rgb.Coherent b s.owner
  wire : Rgb.Coherent b s.wire

theorem clear_coherent {r : Rgb w} (h : Rgb.Coherent b r) : Rgb.Coherent b r.clearChangeFlags :=
  ⟨h.animated, (nomatch ·), h.mode⟩

theorem clean_of_flags {r : Rgb w} (h : r.changeFlags = {}) : (Rgb.settings w).Clean r := by
  intro part
  cases part <;> simp [Rgb.settings, h]

theorem start_good (raw raw' : RgbConfig) : Good b (start b raw raw' : RgbHalves w) := by
  refine ⟨.inl ⟨clean_of_flags rfl, ?_, ⟨.mode, ?_⟩, rfl⟩, Rgb.init_coherent raw, ?_⟩
  · intro part hpart
    cases part with
    | mode => simp [Rgb.settings, start, Rgb.init_flags] at hpart
    | hsvs => simp [Rgb.settings, start, Rgb.init_flags] at hpart
    | timer => simp [Rgb.settings, start, Rgb.init_flags] at hpart
    | layers => simp [Rgb.settings, start, Rgb.init_flags]
  · simp [Rgb.settings, start, Rgb.init_flags]
  · refine ⟨?_, ?_, ?_⟩
    · exact fun h => absurd h Bool.false_ne_true
    · exact fun h => absurd h Bool.false_ne_true
    · exact fun h => absurd h Bool.false_ne_true

variable {s : RgbHalves w}

theorem Good.transfer (h : Good b s) {throttleElapsed : Bool} {outcome : Outcome}
    (hkept : Kept b s (.transfer throttleElapsed outcome)) :
    Good b (rgblightHandlersMaster s throttleElapsed outcome) := by
  unfold rgblightHandlersMaster
  cases hsends : sends s throttleElapsed with
  | false =>
    have hflags : s.owner.changeFlags = {} := by
      simp only [sends, Bool.or_eq_false_iff] at hsends
      simpa using hsends.2
    have hclear : s.owner.clearChangeFlags = s.owner := by
      rw [Rgb.clearChangeFlags, ← hflags]
    simp only [Bool.false_eq_true, if_false, hclear]
    exact h
  | true =>
    rw [if_pos rfl]
    cases outcome with
    | lost => exact h
    | unacknowledged =>
      have hkeeps := hkept hsends (by simp)
      exact ⟨h.inStep.deliver hkeeps, h.owner, h.owner⟩
    | acknowledged =>
      have hkeeps := hkept hsends (by simp)
      exact ⟨h.inStep.acknowledge hkeeps rfl, clear_coherent h.owner, h.owner⟩

theorem Good.slave (h : Good b s) (hkept : Kept b s .slave) : Good b (rgblightHandlersSlave b s) := by
  refine ⟨h.inStep.apply rfl (clean_of_flags rfl) ?_ ?_, h.owner, clear_coherent h.wire⟩
  · intro hclean
    split
    · rw [Rgb.updateSync_clean hclean]
    · rfl
  · intro hpending
    split
    · exact Rgb.updateSync_settings h.wire hkept hpending
    · rename_i hflags
      exact (hpending.value_eq (clean_of_flags (not_not.mp hflags))).symm

theorem Good.step (h : Good b s) {e : RgbEvent} (hkept : Kept b s e) : Good b (step b s e) := by
  cases e with
  | change c =>
    exact ⟨h.inStep.change (Rgb.change_tracks h.owner hkept), Rgb.change_coherent h.owner hkept, h.wire⟩
  | transfer throttleElapsed outcome => exact h.transfer hkept
  | slave => exact h.slave hkept

theorem Good.run (h : Good b s) {events : List RgbEvent} (hkept : KeptRun b s events) : Good b (run b s events) := by
  induction events generalizing s with
  | nil => exact h
  | cons e events ih => exact ih (h.step hkept.1) hkept.2

/-- Once no flag is set, the slave has the settings of the last successful transfer. -/
theorem rgb_light_in_step (b : RgbBuild) (raw raw' : RgbConfig) (events : List RgbEvent)
    (hkept : KeptRun b (start b raw raw' : RgbHalves w) events)
    (howner : (run b (start b raw raw' : RgbHalves w) events).owner.changeFlags = {})
    (hwire : (run b (start b raw raw' : RgbHalves w) events).wire.changeFlags = {}) :
    ∃ r, (run b (start b raw raw' : RgbHalves w) events).sent = some r ∧
      (run b (start b raw raw' : RgbHalves w) events).other.config = r.config ∧
      (run b (start b raw raw' : RgbHalves w) events).other.timerEnabled = r.timerEnabled ∧
      (run b (start b raw raw' : RgbHalves w) events).other.enabledLayerMask = r.enabledLayerMask := by
  obtain ⟨r, hsent, hvalue⟩ :=
    ((start_good raw raw').run hkept).inStep.settled (clean_of_flags howner) (clean_of_flags hwire)
  have hmode := congrFun hvalue .mode
  have hhsvs := congrFun hvalue .hsvs
  simp only [Rgb.settings, Prod.mk.injEq] at hmode hhsvs
  exact ⟨r, hsent, RgbConfig.ext hmode.1 hmode.2 hhsvs.1 hhsvs.2.1 hhsvs.2.2, congrFun hvalue .timer,
    congrFun hvalue .layers⟩

def twoModes : RgbBuild where
  modes := 2
  limitVal := 255
  effect mode := if mode = 1 then .staticLight else .other
  default := ⟨true, 1, 0, 255, 255⟩
  one_le_modes := by decide
  effect_one := rfl

/-- A new mode and then a new colour, each with a transfer of its own. -/
def modeThenColour (between : List RgbEvent) : List RgbEvent :=
  [.transfer false .acknowledged, .slave, .change (.mode 2 true), .transfer false .acknowledged] ++ between ++
    [.change (.sethsv 85 255 255 true), .transfer false .lost, .transfer false .acknowledged, .slave]

def lit : RgbHalves 8 := start twoModes twoModes.default twoModes.default

/-- The slave that runs between the transfers has both. -/
theorem modeThenColour_in_step :
    ∃ r, (run twoModes lit (modeThenColour [.slave])).sent = some r ∧
      (run twoModes lit (modeThenColour [.slave])).other.config = r.config ∧
      (run twoModes lit (modeThenColour [.slave])).other.timerEnabled = r.timerEnabled ∧
      (run twoModes lit (modeThenColour [.slave])).other.enabledLayerMask = r.enabledLayerMask := by
  refine rgb_light_in_step twoModes _ _ _ ?_ (by decide) (by decide)
  refine ⟨?_, ?_, ?_, ?_, ?_, ?_, ?_, ?_, ?_, trivial⟩
  · exact fun _ _ => Rgb.Part.forall.mpr (by decide)
  · exact ⟨by decide, by decide, by decide, by decide⟩
  · exact fun _ _ => .inl (by decide)
  · exact fun _ _ => Rgb.Part.forall.mpr (by decide)
  · exact ⟨by decide, by decide, by decide, by decide⟩
  · exact fun _ _ => .inl (by decide)
  · exact fun _ h => absurd rfl h
  · exact fun _ _ => Rgb.Part.forall.mpr (by decide)
  · exact ⟨by decide, by decide, by decide, by decide⟩

/-- The second transfer comes without the flag of the mode, and the slave never learns of it. -/
theorem pending_mode_overwritten :
    ¬ ∀ (b : RgbBuild) (raw raw' : RgbConfig) (events : List RgbEvent),
      (run b (start b raw raw' : RgbHalves 8) events).owner.changeFlags = {} →
      (run b (start b raw raw' : RgbHalves 8) events).wire.changeFlags = {} →
      ∃ r, (run b (start b raw raw' : RgbHalves 8) events).sent = some r ∧
        (run b (start b raw raw' : RgbHalves 8) events).other.config = r.config ∧
        (run b (start b raw raw' : RgbHalves 8) events).other.timerEnabled = r.timerEnabled ∧
        (run b (start b raw raw' : RgbHalves 8) events).other.enabledLayerMask = r.enabledLayerMask := by
  intro h
  obtain ⟨r, hsent, hconfig, _⟩ :=
    h twoModes twoModes.default twoModes.default (modeThenColour []) (by decide) (by decide)
  have hmaster : (run twoModes lit (modeThenColour [])).sent.map (fun r => r.config.mode) = some 2 := by decide
  have hslave : (run twoModes lit (modeThenColour [])).other.config.mode = 1 := by decide
  have heq : (run twoModes lit (modeThenColour [])).other.config = r.config := hconfig
  rw [show (run twoModes lit (modeThenColour [])).sent = some r from hsent] at hmaster
  rw [heq] at hslave
  simp [hslave] at hmaster

end RgbHalves

end Split
end VialQmk
