import Mathlib.Data.BitVec
import VialQmk.Lib.Recent

/-!
# RgbMatrix.Hits

The key hits that the reactive effects of the RGB matrix remember (`rgb_matrix.c`): four arrays that are shifted
together for a new hit and aged by the elapsed time.

* `handleKeyEvent_hits`, `rgbTaskTimers_hits`: what an event and the timers do to the hits.
* `hits_remembered`: where no shift and no expiry meets a part of the buffer only, this holds the most recent hits.
-/

namespace VialQmk
namespace RgbMatrix

open Lib

structure LedPoint where
  x : UInt8
  y : UInt8
deriving DecidableEq, Repr

/-- The configuration: `LED_HITS_TO_REMEMBER`, which `count` with its 8 bits can hold, `g_led_config` with the LEDs
that `rgb_matrix_map_row_column_to_led_kb` adds, `RGB_MATRIX_SPLIT`, and `RGB_MATRIX_KEYRELEASES` in place of
`RGB_MATRIX_KEYPRESSES`. -/
structure HitLayout where
  ledHitsToRemember : Nat
  hits_le : ledHitsToRemember ≤ 255
  point : UInt8 → LedPoint
  matrixCo : Nat → Nat → UInt8
  mapRowColumnToLedKb : Nat → Nat → List UInt8
  split : Bool
  keyReleases : Bool

structure LastHit where
  count : Nat
  x : Mem UInt8
  y : Mem UInt8
  index : Mem UInt8
  tick : Mem (BitVec 16)

structure HitTracker where
  lastHit : LastHit
  rgbTimerBuffer : BitVec 32

def noLed : UInt8 := 255

/-- An array behind a `memcpy` of `n` elements, from the one at `k` to the first. The two regions overlap; the copy
goes upwards. -/
def memcpyDown {α : Type} (a : Mem α) (k n : Nat) : Mem α := fun i => if i < n then a (i + k) else a i

namespace HitLayout

variable (c : HitLayout)

def mapRowColumnToLed (row col : Nat) : List UInt8 :=
  c.mapRowColumnToLedKb row col ++ if c.matrixCo row col ≠ noLed then [c.matrixCo row col] else []

def Fits : Prop := ∀ row col, (c.mapRowColumnToLed row col).length ≤ c.ledHitsToRemember

/-- The LEDs of an event that `rgb_matrix_handle_key_event` does not pass over. -/
def ledsHit (isKeyboardMaster : Bool) (row col : Nat) (pressed : Bool) : List UInt8 :=
  if (c.split || isKeyboardMaster) && pressed != c.keyReleases then c.mapRowColumnToLed row col else []

def makeRoom (ledCount : Nat) (h : LastHit) : LastHit :=
  if h.count + ledCount > c.ledHitsToRemember then
    { x := memcpyDown h.x ledCount (c.ledHitsToRemember - ledCount)
      y := memcpyDown h.y ledCount (c.ledHitsToRemember - ledCount)
      tick := memcpyDown h.tick ledCount (c.ledHitsToRemember - ledCount)
      index := memcpyDown h.index ledCount (c.ledHitsToRemember - ledCount)
      count := c.ledHitsToRemember - ledCount }
  else h

def addHit (h : LastHit) (led : UInt8) : LastHit where
  x := Function.update h.x h.count (c.point led).x
  y := Function.update h.y h.count (c.point led).y
  index := Function.update h.index h.count led
  tick := Function.update h.tick h.count 0
  count := h.count + 1

def handleKeyEvent (leds : List UInt8) (h : LastHit) : LastHit := leds.foldl c.addHit (c.makeRoom leds.length h)

end HitLayout

/-- A turn of the loop of `rgb_task_timers`; the difference has the 32 bits of the elapsed time. -/
def ageHit (deltaTime : BitVec 32) (h : LastHit) (i : Nat) : LastHit :=
  if 65535 - deltaTime < (h.tick i).setWidth 32 then { h with count := h.count - 1 }
  else { h with tick := Function.update h.tick i (((h.tick i).setWidth 32 + deltaTime).setWidth 16) }

def ageHits (deltaTime : BitVec 32) (h : LastHit) : LastHit := (List.range h.count).foldl (ageHit deltaTime) h

/-- The timer is read twice, for the elapsed time and for the next one. -/
def rgbTaskTimers (elapsedRead nextRead : BitVec 32) (t : HitTracker) : HitTracker :=
  ⟨ageHits (elapsedRead - t.rgbTimerBuffer) t.lastHit, nextRead⟩

def initHits (h : LastHit) : LastHit := { h with count := 0, tick := fun _ => 0xFFFF }

/-- A hit with the time that the timers have measured since. -/
structure Hit where
  point : LedPoint
  index : UInt8
  age : Nat
deriving DecidableEq, Repr

def LastHit.entry (h : LastHit) : Mem Hit := fun i => ⟨⟨h.x i, h.y i⟩, h.index i, (h.tick i).toNat⟩

def LastHit.hits (h : LastHit) : List Hit := h.entry.readBlock 0 h.count

def Hit.Recent (hit : Hit) : Prop := hit.age ≤ 65535
deriving Decidable

def remembered (room : Nat) (log : List Hit) : List Hit := (log.filter fun hit => hit.Recent).rtake room

def Hit.older (elapsed : Nat) (hit : Hit) : Hit := { hit with age := hit.age + elapsed }

def HitLayout.newHit (c : HitLayout) (led : UInt8) : Hit := ⟨c.point led, led, 0⟩

inductive HitAction where
  | keyEvent (isKeyboardMaster : Bool) (row col : Nat) (pressed : Bool)
  | timers (elapsedRead nextRead : BitVec 32)

def HitTracker.act (c : HitLayout) (t : HitTracker) : HitAction → HitTracker
  | .keyEvent isKeyboardMaster row col pressed =>
    { t with lastHit := c.handleKeyEvent (c.ledsHit isKeyboardMaster row col pressed) t.lastHit }
  | .timers elapsedRead nextRead => rgbTaskTimers elapsedRead nextRead t

def HitTracker.record (c : HitLayout) (t : HitTracker) (log : List Hit) : HitAction → List Hit
  | .keyEvent isKeyboardMaster row col pressed =>
    log ++ (c.ledsHit isKeyboardMaster row col pressed).map c.newHit
  | .timers elapsedRead _ => log.map (Hit.older (elapsedRead - t.rgbTimerBuffer).toNat)

/-- The buffers that calls lead to, each of which meets a condition, with all hits so far. -/
inductive HitRun (c : HitLayout) (Meets : HitTracker → HitAction → Prop) : HitTracker → List Hit → Prop where
  | init (h : LastHit) (timer : BitVec 32) : HitRun c Meets ⟨initHits h, timer⟩ []
  | act {t : HitTracker} {log : List Hit} {action : HitAction} :
    HitRun c Meets t log → Meets t action → HitRun c Meets (t.act c action) (t.record c log action)

/-- The new hits find room, or take it in a full buffer or all of it; no time passes beyond 16 bits while there are
hits, and takes them all to an end or none. -/
def HitTracker.Meets (c : HitLayout) (t : HitTracker) : HitAction → Prop
  | .keyEvent isKeyboardMaster row col pressed =>
    let ledCount := (c.ledsHit isKeyboardMaster row col pressed).length
    t.lastHit.count + ledCount ≤ c.ledHitsToRemember ∨ t.lastHit.count = c.ledHitsToRemember ∨
      ledCount = c.ledHitsToRemember
  | .timers elapsedRead _ =>
    let elapsed := (elapsedRead - t.rgbTimerBuffer).toNat
    t.lastHit.count = 0 ∨ elapsed ≤ 65535 ∧
      ((∀ i < t.lastHit.count, 65535 < (t.lastHit.tick i).toNat + elapsed) ∨
        ∀ i < t.lastHit.count, (t.lastHit.tick i).toNat + elapsed ≤ 65535)

instance (c : HitLayout) (t : HitTracker) : (action : HitAction) → Decidable (t.Meets c action)
  | .keyEvent .. => inferInstanceAs (Decidable (_ ∨ _ ∨ _))
  | .timers .. => inferInstanceAs (Decidable (_ ∨ _ ∧ (_ ∨ _)))

namespace HitLayout

variable {c : HitLayout} {h : LastHit} {leds : List UInt8} {led : UInt8}

@[simp] theorem length_hits (h : LastHit) : h.hits.length = h.count := Mem.readBlock_length _ _ _

theorem entry_addHit (c : HitLayout) (h : LastHit) (led : UInt8) :
    (c.addHit h led).entry = Function.update h.entry h.count (c.newHit led) := by
  funext i
  rw [Function.update_apply]
  by_cases hi : i = h.count
  · subst hi
    simp only [LastHit.entry, addHit, Function.update_self, if_true]
    rfl
  · simp only [LastHit.entry, addHit, Function.update_of_ne hi, if_neg hi]

theorem foldl_addHit (leds : List UInt8) (h : LastHit) :
    (leds.foldl c.addHit h).entry = h.entry.writeBlock h.count (leds.map c.newHit) ∧
      (leds.foldl c.addHit h).count = h.count + leds.length := by
  induction leds generalizing h with
  | nil => exact ⟨rfl, rfl⟩
  | cons led leds ih =>
    obtain ⟨hentry, hcount⟩ := ih (c.addHit h led)
    refine ⟨?_, ?_⟩
    · rw [List.foldl_cons, hentry, entry_addHit]
      rfl
    · rw [List.foldl_cons, hcount, List.length_cons]
      change h.count + 1 + leds.length = _
      omega

theorem hits_foldl_addHit (leds : List UInt8) (h : LastHit) :
    (leds.foldl c.addHit h).hits = h.hits ++ leds.map c.newHit := by
  obtain ⟨hentry, hcount⟩ := foldl_addHit (c := c) leds h
  have hread := Mem.readBlock_writeBlock h.entry h.count (leds.map c.newHit)
  rw [List.length_map] at hread
  rw [LastHit.hits, hentry, hcount, Mem.readBlock_append, Nat.zero_add, hread,
    Mem.readBlock_writeBlock_of_disjoint (.inl (Nat.le_of_eq (Nat.zero_add _)))]
  rfl

theorem entry_makeRoom {k : Nat} (hfull : h.count + k > c.ledHitsToRemember) :
    (c.makeRoom k h).entry = memcpyDown h.entry k (c.ledHitsToRemember - k) := by
  funext i
  rw [makeRoom, if_pos hfull]
  simp only [LastHit.entry, memcpyDown]
  split <;> rfl

theorem hits_makeRoom {k : Nat} (hk : k ≤ c.ledHitsToRemember)
    (hmeets : h.count + k ≤ c.ledHitsToRemember ∨ h.count = c.ledHitsToRemember ∨ k = c.ledHitsToRemember) :
    (c.makeRoom k h).hits = h.hits.rtake (c.ledHitsToRemember - k) := by
  by_cases hfull : h.count + k > c.ledHitsToRemember
  · have hroom : (c.makeRoom k h).count = c.ledHitsToRemember - k := by
      rw [makeRoom, if_pos hfull]
    rw [LastHit.hits, entry_makeRoom hfull, hroom]
    rcases hmeets with hfits | hcount | hall
    · exact absurd hfull (Nat.not_lt.mpr hfits)
    · have hsplit := Mem.readBlock_append h.entry (c.ledHitsToRemember - k) k 0
      have hadd : k + (c.ledHitsToRemember - k) = h.count := by omega
      have hdrop : h.count - (c.ledHitsToRemember - k) = (h.entry.readBlock 0 k).length := by
        rw [Mem.readBlock_length]
        omega
      rw [hadd, Nat.zero_add] at hsplit
      rw [List.rtake, length_hits, LastHit.hits, hdrop, hsplit, List.drop_left]
      apply Mem.readBlock_congr
      intro i hi
      rw [memcpyDown, Nat.zero_add, if_pos hi, Nat.add_comm]
    · rw [hall, Nat.sub_self, List.rtake_zero]
      rfl
  · rw [makeRoom, if_neg hfull, rtake_of_le]
    rw [length_hits]
    omega

theorem handleKeyEvent_hits (hleds : leds.length ≤ c.ledHitsToRemember)
    (hmeets : h.count + leds.length ≤ c.ledHitsToRemember ∨ h.count = c.ledHitsToRemember ∨
      leds.length = c.ledHitsToRemember) :
    (c.handleKeyEvent leds h).hits = h.hits.rtake (c.ledHitsToRemember - leds.length) ++ leds.map c.newHit := by
  rw [handleKeyEvent, hits_foldl_addHit, hits_makeRoom hleds hmeets]

end HitLayout

section Timers

variable {h : LastHit} {deltaTime : BitVec 32}

theorem ageHits_none (hdelta : deltaTime.toNat ≤ 65535)
    (hnone : ∀ i < h.count, (h.tick i).toNat + deltaTime.toNat ≤ 65535) {n : Nat} (hn : n ≤ h.count) :
    ∃ tick, (List.range n).foldl (ageHit deltaTime) h = { h with tick := tick } ∧
      ∀ i, (tick i).toNat = (h.tick i).toNat + if i < n then deltaTime.toNat else 0 := by
  induction n with
  | zero => exact ⟨h.tick, rfl, fun i => rfl⟩
  | succ n ih =>
    obtain ⟨tick, hfold, htick⟩ := ih (Nat.le_of_succ_le hn)
    have hn' := hnone n hn
    have hsame := htick n
    rw [if_neg (Nat.lt_irrefl n), Nat.add_zero] at hsame
    have hkeep : ¬ 65535 - deltaTime < (tick n).setWidth 32 := by bv_omega
    rw [List.range_succ, List.foldl_append, hfold, List.foldl_cons, List.foldl_nil, ageHit, if_neg hkeep]
    refine ⟨_, rfl, fun i => ?_⟩
    by_cases hi : i = n
    · subst hi
      rw [Function.update_self, if_pos (Nat.lt_succ_self i)]
      bv_omega
    · rw [Function.update_of_ne hi, htick i]
      have hiff : i < n ↔ i < n + 1 := by omega
      rw [if_congr hiff rfl rfl]

theorem ageHits_all (hdelta : deltaTime.toNat ≤ 65535)
    (hall : ∀ i < h.count, 65535 < (h.tick i).toNat + deltaTime.toNat) {n : Nat} (hn : n ≤ h.count) :
    (List.range n).foldl (ageHit deltaTime) h = { h with count := h.count - n } := by
  induction n with
  | zero => rfl
  | succ n ih =>
    have hn' := hall n hn
    have hgone : 65535 - deltaTime < (h.tick n).setWidth 32 := by bv_omega
    rw [List.range_succ, List.foldl_append, ih (Nat.le_of_succ_le hn), List.foldl_cons, List.foldl_nil, ageHit,
      if_pos hgone]
    rfl

/-- Where the time takes all hits to an end or none, the hits get older, and those of 65535 ms stay. -/
theorem rgbTaskTimers_hits
    (hmeets : h.count = 0 ∨ deltaTime.toNat ≤ 65535 ∧
      ((∀ i < h.count, 65535 < (h.tick i).toNat + deltaTime.toNat) ∨
        ∀ i < h.count, (h.tick i).toNat + deltaTime.toNat ≤ 65535)) :
    (ageHits deltaTime h).hits = (h.hits.map (Hit.older deltaTime.toNat)).filter fun hit => hit.Recent := by
  rw [ageHits]
  rcases hmeets with hempty | ⟨hdelta, hall | hnone⟩
  · rw [LastHit.hits, LastHit.hits, hempty]
    simp only [List.range_zero, List.foldl_nil, hempty]
    rfl
  · have hleave : (h.hits.map (Hit.older deltaTime.toNat)).filter (fun hit => hit.Recent) = [] := by
      rw [List.filter_eq_nil_iff]
      intro hit hmem hrecent
      obtain ⟨old, hold, rfl⟩ := List.mem_map.mp hmem
      obtain ⟨i, hi, rfl⟩ := Mem.mem_readBlock.mp hold
      rw [Nat.zero_add] at hrecent
      exact Nat.not_le.mpr (hall i hi) (of_decide_eq_true hrecent)
    rw [ageHits_all hdelta hall le_rfl, hleave, LastHit.hits]
    simp only [Nat.sub_self]
    rfl
  · obtain ⟨tick, hfold, htick⟩ := ageHits_none hdelta hnone le_rfl
    have hstay : ∀ hit ∈ h.hits.map (Hit.older deltaTime.toNat), hit.Recent := by
      intro hit hmem
      obtain ⟨old, hold, rfl⟩ := List.mem_map.mp hmem
      obtain ⟨i, hi, rfl⟩ := Mem.mem_readBlock.mp hold
      rw [Nat.zero_add]
      exact hnone i hi
    rw [hfold, List.filter_eq_self.mpr fun hit hmem => decide_eq_true (hstay hit hmem)]
    apply List.ext_getElem
    · simp only [List.length_map, HitLayout.length_hits]
    · intro i hi hi'
      have hcount : i < h.count := by
        rwa [List.length_map, HitLayout.length_hits] at hi'
      rw [List.getElem_map]
      simp only [LastHit.hits, Mem.readBlock_getElem, Nat.zero_add, LastHit.entry, Hit.older, htick i, if_pos hcount]

end Timers

section Run

variable {c : HitLayout} {t : HitTracker} {log : List Hit}

theorem remembered_append {new : List Hit} (hnew : ∀ hit ∈ new, hit.Recent) {room : Nat} (hroom : new.length ≤ room) :
    remembered room (log ++ new) = (remembered room log).rtake (room - new.length) ++ new := by
  have hkept : new.filter (fun hit => hit.Recent) = new :=
    List.filter_eq_self.mpr fun hit hmem => decide_eq_true (hnew hit hmem)
  rw [remembered, remembered, List.filter_append, hkept, rtake_append_of_le hroom, rtake_rtake (Nat.sub_le _ _)]

theorem remembered_older (hold : log.Pairwise fun x y => y.age ≤ x.age) (room elapsed : Nat) :
    remembered room (log.map (Hit.older elapsed)) =
      ((remembered room log).map (Hit.older elapsed)).filter fun hit => hit.Recent := by
  have hfilter : (log.map (Hit.older elapsed)).filter (fun hit => hit.Recent) =
      ((log.filter fun hit => hit.Recent).map (Hit.older elapsed)).filter fun hit => hit.Recent := by
    rw [List.filter_map, List.filter_map, List.filter_filter]
    congr 1
    apply List.filter_congr
    intro hit _
    have himp : (hit.older elapsed).Recent → hit.Recent := fun hrecent => Nat.le_of_add_right_le hrecent
    by_cases hrecent : (hit.older elapsed).Recent
    · simp [hrecent, himp hrecent]
    · simp [hrecent]
  have hsorted : ((log.filter fun hit => hit.Recent).map (Hit.older elapsed)).Pairwise fun x y =>
      decide x.Recent = true → decide y.Recent = true := by
    rw [List.pairwise_map]
    refine (hold.filter _).imp fun hle hrecent => ?_
    exact decide_eq_true ((Nat.add_le_add_right hle elapsed).trans (of_decide_eq_true hrecent))
  rw [remembered, hfilter, rtake_filter hsorted, List.rtake, List.length_map, ← List.map_drop]
  rfl

theorem length_ledsHit (hfits : c.Fits) (isKeyboardMaster : Bool) (row col : Nat) (pressed : Bool) :
    (c.ledsHit isKeyboardMaster row col pressed).length ≤ c.ledHitsToRemember := by
  rw [HitLayout.ledsHit]
  split
  · exact hfits row col
  · exact Nat.zero_le _

theorem HitRun.sorted {Meets : HitTracker → HitAction → Prop} (h : HitRun c Meets t log) :
    log.Pairwise fun x y => y.age ≤ x.age := by
  induction h with
  | init => exact List.Pairwise.nil
  | @act t log action _ _ ih =>
    cases action with
    | keyEvent isKeyboardMaster row col pressed =>
      refine List.pairwise_append.mpr ⟨ih, ?_, fun x _ y hy => ?_⟩
      · exact List.pairwise_map.mpr (List.pairwise_of_forall fun _ _ => le_rfl)
      · obtain ⟨led, -, rfl⟩ := List.mem_map.mp hy
        exact Nat.zero_le _
    | timers elapsedRead nextRead =>
      exact List.pairwise_map.mpr (ih.imp fun hle => Nat.add_le_add_right hle _)

/-- Behind each call of a run, the buffer holds the most recent hits of 65535 ms at most with their ages. -/
theorem hits_remembered {c : HitLayout} {t : HitTracker} {log : List Hit} (hfits : c.Fits)
    (h : HitRun c (HitTracker.Meets c) t log) : t.lastHit.hits = remembered c.ledHitsToRemember log := by
  induction h with
  | init => exact (List.rtake_nil _).symm
  | @act t log action hrun hmeets ih =>
    cases action with
    | keyEvent isKeyboardMaster row col pressed =>
      have hleds := length_ledsHit hfits isKeyboardMaster row col pressed
      have hnew : ∀ hit ∈ (c.ledsHit isKeyboardMaster row col pressed).map c.newHit, hit.Recent := by
        intro hit hmem
        obtain ⟨led, -, rfl⟩ := List.mem_map.mp hmem
        exact Nat.zero_le _
      change (c.handleKeyEvent _ t.lastHit).hits = remembered _ (log ++ _)
      rw [HitLayout.handleKeyEvent_hits hleds hmeets, remembered_append hnew (by rwa [List.length_map]), ih,
        List.length_map]
    | timers elapsedRead nextRead =>
      change (ageHits _ t.lastHit).hits = remembered _ (log.map _)
      rw [rgbTaskTimers_hits hmeets, remembered_older hrun.sorted, ih]

end Run

/-- Room for two hits, and a column of keys with an LED each. -/
def twoHits : HitLayout where
  ledHitsToRemember := 2
  hits_le := Nat.le_add_right 2 253
  point led := ⟨led, 0⟩
  matrixCo row _ := UInt8.ofNat row
  mapRowColumnToLedKb _ _ := []
  split := false
  keyReleases := false

theorem twoHits_fits : twoHits.Fits := by
  intro row col
  rw [HitLayout.mapRowColumnToLed]
  split
  · exact Nat.le_succ 1
  · exact Nat.zero_le 2

def pressRow (row : Nat) : HitAction := .keyEvent true row 0 true

def wait (now : BitVec 32) : HitAction := .timers now now

def noHits : HitTracker := ⟨initHits ⟨0, fun _ => 0, fun _ => 0, fun _ => 0, fun _ => 0⟩, 0⟩

/-- The third hit takes the room of the first; then both that are left expire in one call. -/
theorem hits_remembered_three :
    let full := [pressRow 3, wait 500, pressRow 4, wait 1000, pressRow 5].foldl (HitTracker.act twoHits) noHits
    full.lastHit.hits = [⟨⟨4, 0⟩, 4, 500⟩, ⟨⟨5, 0⟩, 5, 0⟩] ∧
      ([wait 41000, wait 71000].foldl (HitTracker.act twoHits) full).lastHit.hits = [] := by
  have hnone : HitRun twoHits (HitTracker.Meets twoHits) noHits [] := .init _ _
  have hfirst := (hnone.act (by decide : HitTracker.Meets twoHits _ (pressRow 3))).act
    (by decide : HitTracker.Meets twoHits _ (wait 500))
  have hsecond := (hfirst.act (by decide : HitTracker.Meets twoHits _ (pressRow 4))).act
    (by decide : HitTracker.Meets twoHits _ (wait 1000))
  have hfull := hsecond.act (by decide : HitTracker.Meets twoHits _ (pressRow 5))
  have hexpired := (hfull.act (by decide : HitTracker.Meets twoHits _ (wait 41000))).act
    (by decide : HitTracker.Meets twoHits _ (wait 71000))
  exact ⟨(hits_remembered twoHits_fits hfull).trans (by decide),
    (hits_remembered twoHits_fits hexpired).trans (by decide)⟩

/-- The first of two hits expires, and the second one is forgotten in its place. -/
theorem hits_expiry_drops_newest :
    ¬ ∀ t log, HitRun twoHits (fun _ _ => True) t log → t.lastHit.hits = remembered 2 log := by
  intro hall
  have hrun : HitRun twoHits (fun _ _ => True)
      ((((noHits.act twoHits (pressRow 3)).act twoHits (wait 40000)).act twoHits (pressRow 4)).act twoHits (wait 70000))
      [⟨⟨3, 0⟩, 3, 70000⟩, ⟨⟨4, 0⟩, 4, 30000⟩] :=
    .act (.act (.act (.act (.init _ _) trivial) trivial) trivial) trivial
  exact absurd (hall _ _ hrun) (by decide)

end RgbMatrix
end VialQmk
