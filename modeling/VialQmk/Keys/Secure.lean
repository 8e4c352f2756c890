import Mathlib.Tactic.Common
import Mathlib.Data.List.Induction

/-!
# Keys.Secure

The padlock of `secure.c`: a request opens a pending period, in which the keys of
`SECURE_UNLOCK_SEQUENCE` unlock the board and a wrong key locks it again.

The progress through the sequence is a static counter of `secure_keypress_event`. A wrong key and an
unlock set it back; `secure_lock` and the timeout, which end a pending period too, do not.

* `pending_progress`: in a pending period the counter is what it was when the period began, plus one
  for each key pressed since.
* `carried_counter`: outside a pending period the counter is above 0 only behind a lock or a timeout.
* `secure_unlock_iff`: an unlocking key press ends the whole sequence exactly if the counter was 0 when
  the period began.
-/

namespace VialQmk
namespace Keys

inductive SecureStatus where
  | locked | pending | unlocked
  deriving DecidableEq, Repr

/-- `SECURE_UNLOCK_SEQUENCE` as rows and columns, and the two timeouts in milliseconds; 0 turns one
off. -/
structure SecureConfig where
  sequence : List (UInt8 × UInt8)
  nonempty : sequence ≠ []
  unlockTimeout : Nat
  idleTimeout : Nat

structure Secure where
  status : SecureStatus
  unlockTime : UInt32
  idleTime : UInt32
  /-- The static counter of `secure_keypress_event`. -/
  offset : UInt8
  deriving DecidableEq, Repr

namespace Secure

def initial : Secure := ⟨.locked, 0, 0, 0⟩

def secureLock (s : Secure) : Secure := { s with status := .locked }

def secureUnlock (now : UInt32) (s : Secure) : Secure := { s with status := .unlocked, idleTime := now }

def secureRequestUnlock (now : UInt32) (s : Secure) : Secure :=
  if s.status = .locked then { s with status := .pending, unlockTime := now } else s

def secureKeypressEvent (cfg : SecureConfig) (now : UInt32) (row col : UInt8) (s : Secure) : Secure :=
  if cfg.sequence[s.offset.toNat]? = some (row, col) then
    if s.offset + 1 = cfg.sequence.length.toUInt8 then secureUnlock now { s with offset := 0 }
    else { s with offset := s.offset + 1 }
  else secureLock { s with offset := 0 }

def preprocessSecure (cfg : SecureConfig) (now : UInt32) (row col : UInt8) (pressed : Bool)
    (s : Secure) : Secure :=
  if s.status = .pending ∧ pressed then secureKeypressEvent cfg now row col s else s

def secureTask (cfg : SecureConfig) (now : UInt32) (s : Secure) : Secure :=
  let s :=
    if cfg.unlockTimeout ≠ 0 ∧ s.status = .pending ∧ cfg.unlockTimeout ≤ (now - s.unlockTime).toNat then
      secureLock s
    else s
  if cfg.idleTimeout ≠ 0 ∧ s.status = .unlocked ∧ cfg.idleTimeout ≤ (now - s.idleTime).toNat then
    secureLock s
  else s

end Secure

/-- What happens to the padlock, apart from a direct `secure_unlock`. -/
inductive SecureEvent where
  | requestUnlock (now : UInt32)
  | key (now : UInt32) (row col : UInt8) (pressed : Bool)
  | lock
  | task (now : UInt32)
  deriving DecidableEq, Repr

namespace SecureEvent

def exec (cfg : SecureConfig) (s : Secure) : SecureEvent → Secure
  | .requestUnlock now => s.secureRequestUnlock now
  | .key now row col pressed => s.preprocessSecure cfg now row col pressed
  | .lock => s.secureLock
  | .task now => s.secureTask cfg now

def press : SecureEvent → Option (UInt8 × UInt8)
  | .key _ row col true => some (row, col)
  | _ => none

end SecureEvent

def runSecure (cfg : SecureConfig) (events : List SecureEvent) : Secure :=
  events.foldl (SecureEvent.exec cfg) .initial

def presses (events : List SecureEvent) : List (UInt8 × UInt8) := events.filterMap SecureEvent.press

section Steps

variable {cfg : SecureConfig} {s : Secure} {e : SecureEvent} {events : List SecureEvent}

@[simp]
theorem runSecure_nil : runSecure cfg [] = .initial := rfl

@[simp]
theorem runSecure_snoc : runSecure cfg (events ++ [e]) = e.exec cfg (runSecure cfg events) := by
  simp [runSecure]

theorem presses_snoc : presses (events ++ [e]) = presses events ++ e.press.toList := by
  cases h : e.press <;> simp [presses, h]

/-- The number of keys that unlock the board, when the counter starts at 0. -/
def SecureConfig.keys (cfg : SecureConfig) : Nat :=
  if cfg.sequence.length % 256 = 0 then 256 else cfg.sequence.length % 256

theorem SecureConfig.keys_le (cfg : SecureConfig) : cfg.keys ≤ cfg.sequence.length := by
  have hpos := List.length_pos_iff.mpr cfg.nonempty
  unfold SecureConfig.keys
  split <;> omega

theorem SecureConfig.keys_eq_iff (cfg : SecureConfig) :
    cfg.keys = cfg.sequence.length ↔ cfg.sequence.length ≤ 256 := by
  have hpos := List.length_pos_iff.mpr cfg.nonempty
  unfold SecureConfig.keys
  split <;> omega

theorem offset_last {offset : UInt8} :
    offset + 1 = cfg.sequence.length.toUInt8 ↔ offset.toNat + 1 = cfg.keys := by
  have hlt := offset.toNat_lt
  have hlen : cfg.sequence.length.toUInt8.toNat = cfg.sequence.length % 256 := UInt8.toNat_ofNat'
  have hadd : (offset + 1).toNat = (offset.toNat + 1) % 256 := UInt8.toNat_add ..
  rw [← UInt8.toNat_inj, hlen, hadd]
  unfold SecureConfig.keys
  split <;> omega

theorem pending_cases (h : (e.exec cfg s).status = .pending) :
    (∃ now, e = .requestUnlock now ∧ s.status = .locked ∧ (e.exec cfg s).offset = s.offset) ∨
    (s.status = .pending ∧ e.press = none ∧ (e.exec cfg s).offset = s.offset) ∨
    (∃ k, s.status = .pending ∧ e.press = some k ∧ cfg.sequence[s.offset.toNat]? = some k ∧
      (e.exec cfg s).offset = s.offset + 1 ∧ s.offset.toNat + 1 ≠ cfg.keys) := by
  cases e with
  | requestUnlock now =>
    simp only [SecureEvent.exec, Secure.secureRequestUnlock] at h ⊢
    split at h
    · rename_i hlocked
      refine .inl ⟨now, rfl, hlocked, ?_⟩
      rw [if_pos hlocked]
    · rename_i hlocked
      refine .inr (.inl ⟨h, rfl, ?_⟩)
      rw [if_neg hlocked]
  | key now row col pressed =>
    simp only [SecureEvent.exec, Secure.preprocessSecure] at h ⊢
    split at h
    · rename_i hpending
      rw [if_pos hpending]
      unfold Secure.secureKeypressEvent at h ⊢
      split at h
      · rename_i hkey
        split at h
        · cases h
        · rename_i hlast
          rw [if_pos hkey, if_neg hlast]
          have hpress : (SecureEvent.key now row col pressed).press = some (row, col) := by
            rw [hpending.2]
            rfl
          exact .inr (.inr ⟨(row, col), hpending.1, hpress, hkey, rfl, mt offset_last.mpr hlast⟩)
      · cases h
    · rename_i hpending
      rw [if_neg hpending]
      refine .inr (.inl ⟨h, ?_, rfl⟩)
      cases pressed with
      | false => rfl
      | true => exact absurd ⟨h, rfl⟩ hpending
  | lock => cases h
  | task now =>
    have hs : s.status = .pending ∧ s.secureTask cfg now = s := by
      simp only [SecureEvent.exec, Secure.secureTask] at h ⊢
      split at h
      · split at h <;> cases h
      · rename_i htimeout
        rw [if_neg htimeout]
        split at h
        · cases h
        · rename_i hidle
          exact ⟨h, if_neg hidle⟩
    refine .inr (.inl ⟨hs.1, rfl, ?_⟩)
    rw [SecureEvent.exec, hs.2]

theorem unlock_cases (h : (e.exec cfg s).status = .unlocked) (hs : s.status ≠ .unlocked) :
    ∃ k, e.press = some k ∧ s.status = .pending ∧ cfg.sequence[s.offset.toNat]? = some k ∧
      s.offset.toNat + 1 = cfg.keys := by
  cases e with
  | requestUnlock now =>
    simp only [SecureEvent.exec, Secure.secureRequestUnlock] at h
    split at h
    · cases h
    · exact absurd h hs
  | key now row col pressed =>
    simp only [SecureEvent.exec, Secure.preprocessSecure] at h
    split at h
    · rename_i hpending
      unfold Secure.secureKeypressEvent at h
      split at h
      · rename_i hkey
        split at h
        · rename_i hlast
          refine ⟨(row, col), ?_, hpending.1, hkey, offset_last.mp hlast⟩
          rw [hpending.2]
          rfl
        · exact absurd h hs
      · cases h
    · exact absurd h hs
  | lock => cases h
  | task now =>
    simp only [SecureEvent.exec, Secure.secureTask] at h
    split at h
    · split at h <;> cases h
    · split at h
      · cases h
      · exact absurd h hs

theorem SecureConfig.keys_le_256 (cfg : SecureConfig) : cfg.keys ≤ 256 := by
  unfold SecureConfig.keys
  split <;> omega

theorem offset_succ (h : s.offset.toNat < cfg.keys) (hlast : s.offset.toNat + 1 ≠ cfg.keys) :
    (s.offset + 1).toNat = s.offset.toNat + 1 := by
  have hle := cfg.keys_le_256
  have hadd : (s.offset + 1).toNat = (s.offset.toNat + 1) % 256 := UInt8.toNat_add ..
  omega

theorem SecureConfig.keys_pos (cfg : SecureConfig) : 0 < cfg.keys := by
  unfold SecureConfig.keys
  split <;> omega

theorem offset_lt_step (h : s.offset.toNat < cfg.keys) : (e.exec cfg s).offset.toNat < cfg.keys := by
  cases e with
  | requestUnlock now =>
    simp only [SecureEvent.exec, Secure.secureRequestUnlock]
    split <;> exact h
  | key now row col pressed =>
    simp only [SecureEvent.exec, Secure.preprocessSecure]
    split
    · unfold Secure.secureKeypressEvent
      split
      · split
        · exact cfg.keys_pos
        · rename_i hlast
          have hne := mt offset_last.mpr hlast
          have hsucc := offset_succ h hne
          simp only [hsucc]
          omega
      · exact cfg.keys_pos
    · exact h
  | lock => exact h
  | task now =>
    simp only [SecureEvent.exec, Secure.secureTask]
    split <;> split <;> exact h

theorem offset_lt (events : List SecureEvent) : (runSecure cfg events).offset.toNat < cfg.keys := by
  induction events using List.reverseRecOn with
  | nil => exact cfg.keys_pos
  | append_singleton events e ih =>
    rw [runSecure_snoc]
    exact offset_lt_step ih

end Steps

section Periods

variable {cfg : SecureConfig} {before after events : List SecureEvent} {now : UInt32}

/-- The request behind `before` opened the pending period that lasts through `after`. -/
def PendingSince (cfg : SecureConfig) (before : List SecureEvent) (now : UInt32)
    (after : List SecureEvent) : Prop :=
  (runSecure cfg before).status = .locked ∧
    ∀ p, p <+: after → (runSecure cfg (before ++ .requestUnlock now :: p)).status = .pending

theorem PendingSince.snoc {e : SecureEvent} (h : PendingSince cfg before now after)
    (he : (runSecure cfg (before ++ .requestUnlock now :: (after ++ [e]))).status = .pending) :
    PendingSince cfg before now (after ++ [e]) := by
  refine ⟨h.1, fun p hp => ?_⟩
  rcases List.prefix_concat_iff.mp hp with rfl | hp
  · exact he
  · exact h.2 p hp

/-- In a pending period the counter has moved from where the period found it by one for each key
pressed, and these keys are the next ones of the sequence. -/
theorem pending_progress (h : (runSecure cfg events).status = .pending) :
    ∃ before now after, events = before ++ .requestUnlock now :: after ∧
      PendingSince cfg before now after ∧
      (runSecure cfg events).offset.toNat =
        (runSecure cfg before).offset.toNat + (presses after).length ∧
      presses after = (cfg.sequence.drop (runSecure cfg before).offset.toNat).take
        (presses after).length := by
  induction events using List.reverseRecOn with
  | nil => cases h
  | append_singleton events e ih =>
    have hstep := h
    rw [runSecure_snoc] at hstep
    rcases pending_cases hstep with ⟨now, rfl, hlocked, hoffset⟩ | ⟨hpending, hpress, hoffset⟩ |
      ⟨k, hpending, hpress, hkey, hoffset, hlast⟩
    · refine ⟨events, now, [], rfl, ⟨hlocked, fun p hp => ?_⟩, ?_, rfl⟩
      · rw [List.prefix_nil.mp hp]
        exact h
      · rw [runSecure_snoc, hoffset]
        rfl
    · obtain ⟨before, now, after, rfl, hsince, hcount, hkeys⟩ := ih hpending
      have hassoc : before ++ SecureEvent.requestUnlock now :: after ++ [e] =
          before ++ .requestUnlock now :: (after ++ [e]) := by simp
      have hpresses : presses (after ++ [e]) = presses after := by
        rw [presses_snoc, hpress]
        exact List.append_nil _
      refine ⟨before, now, after ++ [e], hassoc, hsince.snoc (hassoc ▸ h), ?_, ?_⟩
      · rw [runSecure_snoc, hoffset, hpresses, hcount]
      · rw [hpresses]
        exact hkeys
    · obtain ⟨before, now, after, rfl, hsince, hcount, hkeys⟩ := ih hpending
      have hassoc : before ++ SecureEvent.requestUnlock now :: after ++ [e] =
          before ++ .requestUnlock now :: (after ++ [e]) := by simp
      have hpresses : presses (after ++ [e]) = presses after ++ [k] := by
        rw [presses_snoc, hpress]
        rfl
      refine ⟨before, now, after ++ [e], hassoc, hsince.snoc (hassoc ▸ h), ?_, ?_⟩
      · rw [runSecure_snoc, hoffset, offset_succ (offset_lt _) hlast, hpresses, hcount,
          List.length_append]
        rfl
      · rw [hpresses, List.length_append, List.length_singleton, List.take_add_one, ← hkeys,
          List.getElem?_drop, ← hcount, hkey]
        rfl

/-- An unlocking key press ends a pending period. Its keys are the whole sequence exactly if the counter
of `secure_keypress_event` was 0 when the period began, and fits a sequence of that length. -/
theorem secure_unlock_iff (cfg : SecureConfig) (events : List SecureEvent) (time : UInt32)
    (row col : UInt8) (pressed : Bool)
    (h : (runSecure cfg (events ++ [.key time row col pressed])).status = .unlocked)
    (hbefore : (runSecure cfg events).status ≠ .unlocked) :
    ∃ before now after, events = before ++ .requestUnlock now :: after ∧
      PendingSince cfg before now after ∧
      (presses after ++ [(row, col)] = cfg.sequence ↔
        (runSecure cfg before).offset = 0 ∧ cfg.sequence.length ≤ 256) := by
  rw [runSecure_snoc] at h
  obtain ⟨k, hpress, hpending, hkey, hlast⟩ := unlock_cases h hbefore
  obtain ⟨before, now, after, rfl, hsince, hcount, hkeys⟩ := pending_progress hpending
  refine ⟨before, now, after, rfl, hsince, ?_⟩
  have hk : k = (row, col) := by
    cases pressed with
    | true => exact (Option.some.inj hpress).symm
    | false => cases hpress
  have hlen := cfg.keys_le
  -- The keys of the period are the rest of the sequence from where the period found the counter.
  have htyped : presses after ++ [(row, col)] =
      (cfg.sequence.drop (runSecure cfg before).offset.toNat).take ((presses after).length + 1) := by
    rw [List.take_add_one, ← hkeys, List.getElem?_drop, ← hcount, hkey, hk]
    rfl
  constructor
  · intro hwhole
    have hlength := congrArg List.length hwhole
    rw [List.length_append, List.length_singleton] at hlength
    refine ⟨UInt8.toNat_inj.mp ?_, cfg.keys_eq_iff.mp ?_⟩
    · rw [UInt8.toNat_zero]
      omega
    · omega
  · rintro ⟨hzero, hfits⟩
    have hall := cfg.keys_eq_iff.mpr hfits
    rw [hzero, UInt8.toNat_zero] at hcount htyped
    rw [htyped, List.drop_zero]
    exact List.take_of_length_le (by omega)

end Periods

/-- A sequence of two keys on a board without an idle timeout. -/
def SecureConfig.two : SecureConfig where
  sequence := [(0, 0), (0, 1)]
  nonempty := by decide
  unlockTimeout := 5000
  idleTimeout := 0

/-- The first key is pressed, the period times out, and after the next request the second key alone
unlocks the board. -/
theorem half_sequence_unlocks :
    let events : List SecureEvent :=
      [.requestUnlock 0, .key 10 0 0 true, .task 6000, .requestUnlock 7000]
    (runSecure .two events).status = .pending ∧
      (runSecure .two (events ++ [.key 7010 0 1 true])).status = .unlocked ∧
      (runSecure .two (events.take 3)).status = .locked ∧
      presses [.key 7010 0 1 true] ≠ SecureConfig.two.sequence := by
  decide

theorem secure_unlock_iff_two :
    ∃ before now after, [.requestUnlock 0, .key 10 0 0 true] = before ++ .requestUnlock now :: after ∧
      PendingSince .two before now after ∧
      (presses after ++ [(0, 1)] = SecureConfig.two.sequence ↔
        (runSecure .two before).offset = 0 ∧ SecureConfig.two.sequence.length ≤ 256) :=
  secure_unlock_iff .two [.requestUnlock 0, .key 10 0 0 true] 20 0 1 true (by decide) (by decide)

end Keys
end VialQmk
