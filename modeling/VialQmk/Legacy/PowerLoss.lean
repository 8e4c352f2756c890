import VialQmk.Legacy.Refines

/-!
# Legacy.PowerLoss

The emulated EEPROM when power is lost between two flash operations.

* `powerLoss`: a write that is cut off, and the `EEPROM_Init` behind it.
* `survives_power_loss`: runs of writes, some of them cut off.

A compaction erases the pages one after the other, the compacted area first. In between, the log may hold entries about
half-words that are erased already.
-/

namespace VialQmk
namespace Legacy

open Lib

section Events

variable (f : Fee)

def Write.ops (s : Eeprom) (w : Write) : List FlashOp := (w.run f { s with trace := [] }).trace

/-- What is left of the flash when power is lost after `k` operations of a write. -/
def cutFlash (s : Eeprom) (w : Write) (k : Nat) : Mem UInt16 :=
  runAll (FlashOp.run f) s.flash ((w.ops f s).take k)

def powerLoss (s : Eeprom) (w : Write) (k : Nat) : Eeprom :=
  eepromInit f
    { flash := cutFlash f s w k, dataBuf := fun _ => 0, emptySlot := 0, trace := s.trace ++ (w.ops f s).take k }

inductive Event
  | write (w : Write)
  | init
  | loss (w : Write) (k : Nat)
  deriving DecidableEq, Repr

def Event.run (s : Eeprom) : Event → Eeprom
  | .write w => w.run f s
  | .init => eepromInit f s
  | .loss w k => powerLoss f s w k

def Event.InRange : Event → Prop
  | .write w | .loss w _ => w.InRange f
  | .init => True

instance : DecidablePred (Write.InRange f) := fun w => match w with
  | .byte _ _ => inferInstanceAs (Decidable (_ < _))
  | .word _ _ => inferInstanceAs (Decidable (_ < _))

instance : DecidablePred (Event.InRange f) := fun e => match e with
  | .write w => inferInstanceAs (Decidable (w.InRange f))
  | .init => isTrue trivial
  | .loss w _ => inferInstanceAs (Decidable (w.InRange f))

instance (done : List FlashOp) : Decidable (PartlyErased f done) := inferInstanceAs (Decidable (¬ _))

/-- A write is done in full, or, if it is cut off and does not compact, byte by byte. -/
def Event.Kept (s : Eeprom) : Event → Prop
  | .write w => (w.run f s).dataBuf = w.apply s.dataBuf
  | .init => (eepromInit f s).dataBuf = s.dataBuf
  | .loss w k => erases (w.ops f s) = 0 → OldOrNew s.dataBuf (w.apply s.dataBuf) (powerLoss f s w k).dataBuf

/-- `EEPROM_Init` finds the contents in every state of a run, whatever has been written or lost until then. -/
def Survives : Eeprom → List Event → Prop
  | s, [] => (eepromInit f s).dataBuf = s.dataBuf
  | s, e :: events => (eepromInit f s).dataBuf = s.dataBuf ∧ e.Kept f s ∧ Survives (e.run f s) events

/-- Power is lost between the erases of a compaction only if what is left of the log is about programmed half-words. -/
def Event.Avoids (s : Eeprom) : Event → Prop
  | .write w => ¬ ZeroesFullLog f s w
  | .init => True
  | .loss w k =>
    ¬ ZeroesFullLog f s w ∧ (PartlyErased f ((w.ops f s).take k) → ∃ es, Image f (cutFlash f s w k) es)

def EventsAvoid : Eeprom → List Event → Prop
  | _, [] => True
  | s, e :: events => e.Avoids f s ∧ EventsAvoid (e.run f s) events

end Events

section Events

variable {f : Fee} {s : Eeprom} {es : List Entry}

theorem Inv.powerLoss (h : Inv f s es) {w : Write} (hrange : w.InRange f) (k : Nat)
    (hok : (Event.loss w k).Avoids f s) :
    (∃ es', Inv f (powerLoss f s w k) es') ∧ (Event.loss w k).Kept f s := by
  obtain ⟨hzero, hpart⟩ := hok
  have h₀ : Inv f { s with trace := [] } es := ⟨h.image, h.dataBuf, h.emptySlot⟩
  have hzero₀ : ¬ ZeroesFullLog f { s with trace := [] } w := by
    cases w with
    | byte address value => exact hzero
    | word address value => exact hzero
  obtain ⟨ops, es₁, hc, hinv, hd⟩ := w.completes h₀ hrange hzero₀
  have hops : w.ops f s = ops := hc.performs.trace
  have hcut := hc.cuts k
  rw [← h₀.dataBuf, ← hinv.dataBuf, hd] at hcut
  obtain ⟨es', himage, hkept⟩ : ∃ es', Image f (cutFlash f s w k) es' ∧
      (erases (w.ops f s) = 0 → OldOrNew s.dataBuf (w.apply s.dataBuf) (contents f (cutFlash f s w k) es')) := by
    rw [cutFlash, hops]
    rcases hcut with hpe | hcut
    · obtain ⟨es', himage⟩ := hpart (by rwa [hops])
      rw [cutFlash, hops] at himage
      refine ⟨es', himage, fun hnone => ?_⟩
      have hle : erases (ops.take k) ≤ erases ops := (List.take_sublist k ops).countP_le
      rw [PartlyErased, show erases (ops.take k) = 0 by omega] at hpe
      exact absurd (Nat.dvd_zero _) hpe
    · exact hcut
  have hinit := himage.init_eq (s := { flash := cutFlash f s w k, dataBuf := fun _ => 0, emptySlot := 0
                                       trace := s.trace ++ (w.ops f s).take k })
  rw [Event.Kept, Legacy.powerLoss, hinit]
  exact ⟨⟨es', himage, rfl, rfl⟩, hkept⟩

theorem Inv.event (h : Inv f s es) {e : Event} (hrange : e.InRange f) (hok : e.Avoids f s) :
    (∃ es', Inv f (e.run f s) es') ∧ e.Kept f s := by
  cases e with
  | write w =>
    obtain ⟨ops, es', -, hinv, hd⟩ := w.completes h hrange hok
    exact ⟨⟨es', hinv⟩, hd⟩
  | init =>
    rw [Event.run, Event.Kept, h.init_eq]
    exact ⟨⟨es, h⟩, rfl⟩
  | loss w k => exact h.powerLoss hrange k hok

theorem Inv.survives (events : List Event) :
    ∀ {s es}, Inv f s es → (∀ e ∈ events, e.InRange f) → EventsAvoid f s events → Survives f s events := by
  induction events with
  | nil =>
    intro s es h _ _
    rw [Survives, h.init_eq]
  | cons e events ih =>
    intro s es h hrange hok
    obtain ⟨⟨es', hinv⟩, hkept⟩ := h.event (hrange e List.mem_cons_self) hok.1
    refine ⟨by rw [h.init_eq], hkept, ih hinv (fun e' he => hrange e' (List.mem_cons_of_mem _ he)) hok.2⟩

/-- From an erased image: every run of writes, of which any may be cut off anywhere but where a compaction leaves stale
entries. -/
theorem survives_power_loss (f : Fee) (s : Eeprom) (events : List Event) (hrange : ∀ e ∈ events, e.InRange f)
    (hok : EventsAvoid f (eepromErase f s) events) : Survives f (eepromErase f s) events :=
  (erase_inv s).1.survives events hrange hok

end Events

/-- Two pages of 128 bytes: one for the compacted area, and a half-word of the other for the log. -/
def twoPages : Fee where
  pageSize := 128
  pageCount := 2
  densityBytes := 128
  writeLogBytes := 2
  pageSize_even := by decide
  density_even := by decide
  writeLog_even := twoWords.writeLog_even
  density_le := by decide
  fits := by decide

def someEvents : List Event :=
  [.write (.byte 4 7), .write (.byte 4 8), .loss (.byte 4 9) 2, .loss (.byte 100 1) 0, .init, .write (.byte 4 9)]

theorem twoPages_survives : Survives twoPages (eepromErase twoPages unused) someEvents := by
  refine survives_power_loss twoPages unused someEvents (by decide) ⟨id, id, ⟨id, ?_⟩, ⟨id, ?_⟩, trivial, id, trivial⟩
  · exact fun hpart => absurd hpart (by decide +kernel)
  · exact fun hpart => absurd hpart (by decide +kernel)

/-- Power is lost behind the first of two erases: the log outlives the half-word that its entry is about, and overrides
what is written there next. -/
theorem stale_entry_overrides :
    ¬ ∀ (f : Fee) (s : Eeprom) (events : List Event), (∀ e ∈ events, e.InRange f) →
      Survives f (eepromErase f s) events := by
  intro h
  have hs := h twoPages unused
    [.write (.word 0 0x0101), .write (.byte 0 2), .loss (.byte 0 3) 1, .write (.byte 0 9)] (by decide)
  have hlost := congrFun hs.2.2.2.2.2.2.2.2 0
  exact absurd hlost (by decide +kernel)

end Legacy
end VialQmk
