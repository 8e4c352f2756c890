import Mathlib.Data.Nat.Find
import VialQmk.Hid.Vial

/-!
# Keys.MacroSend

The macro player of `dynamic_keymap.c`: `dynamic_keymap_macro_send` walks the macro area of the
EEPROM with a cursor, first over the macros in front of the one it wants, then over the bytes of
that one.

* `macroStep` is one round of the player's loop. It reads a few bytes from the cursor on, may execute
  one action, and breaks or goes on behind the bytes it read.
* `IsSegment` says where the bytes of a macro lie: between the terminating zero of the macro in
  front of it and its own.
* `WellEnded` reads these bytes as the player does and says where it stands at the terminator.

A cut instruction is not always noticed: the player breaks where the byte behind the prefix or the
second byte of a delay is missing, but goes on behind the terminator where the operand of a key
action is missing, and reads behind it where a delay has no byte at all.
-/

namespace VialQmk
namespace Keys

open Lib Eeprom Hid

def ssQmkPrefix : UInt8 := 1
def ssTapCode : UInt8 := 1
def ssDownCode : UInt8 := 2
def ssUpCode : UInt8 := 3
def ssDelayCode : UInt8 := 4
def vialMacroExtTap : UInt8 := 5
def vialMacroExtDown : UInt8 := 6
def vialMacroExtUp : UInt8 := 7

def IsKeyCode (c : UInt8) : Prop := c = ssTapCode ∨ c = ssDownCode ∨ c = ssUpCode
deriving Decidable

/-- The codes that take two operands, the bytes of a keycode. -/
def IsExtCode (c : UInt8) : Prop :=
  c = vialMacroExtTap ∨ c = vialMacroExtDown ∨ c = vialMacroExtUp
deriving Decidable

/-- `decode_keycode`: 0xFF01 stands for 0x0100, 0xFF02 for 0x0200. -/
def decodeKeycode (kc : UInt16) : UInt16 :=
  if kc > 0xFF00 then (kc &&& 0xFF) <<< 8 else kc

inductive MacroAction where
  | sendString (data : List UInt8)
  | sendStringWithDelay (data : List UInt8)
  | vialKeycodeTap (kc : UInt16)
  | vialKeycodeDown (kc : UInt16)
  | vialKeycodeUp (kc : UInt16)
  | waitMs (ms : Nat)
  deriving DecidableEq, Repr

/-- One round of the player's loop: how many bytes it read from the cursor on, the action it
executed, and whether it left the loop. -/
structure MacroStep where
  read : Nat
  action : Option MacroAction
  stop : Bool
  deriving DecidableEq, Repr

/-- The `VIAL_MACRO_EXT_*` action of a code, with the keycode in the machine's byte order. -/
def extAction (data1 data2 data3 : UInt8) : MacroAction :=
  let kc := decodeKeycode (beWord data3 data2)
  if data1 = vialMacroExtTap then .vialKeycodeTap kc
  else if data1 = vialMacroExtDown then .vialKeycodeDown kc
  else .vialKeycodeUp kc

def macroStep (m : EepromMem) (p : Nat) : MacroStep :=
  let data0 := m p
  if data0 = 0 then ⟨1, none, true⟩
  else if data0 = ssQmkPrefix then
    let data1 := m (p + 1)
    if data1 = 0 then ⟨2, none, true⟩
    else if IsKeyCode data1 then
      let data2 := m (p + 2)
      ⟨3, if data2 ≠ 0 then some (.sendString [data0, data1, data2]) else none, false⟩
    else if IsExtCode data1 then
      let data2 := m (p + 2)
      if data2 ≠ 0 then
        let data3 := m (p + 3)
        ⟨4, if data3 ≠ 0 then some (extAction data1 data2 data3) else none, false⟩
      else ⟨3, none, false⟩
    else if data1 = ssDelayCode then
      let d0 := m (p + 2)
      let d1 := m (p + 3)
      if d0 = 0 ∨ d1 = 0 then ⟨4, none, true⟩
      else ⟨4, some (.waitMs ((d0.toNat - 1) + (d1.toNat - 1) * 255)), false⟩
    else ⟨2, none, false⟩
  else ⟨1, some (.sendStringWithDelay [data0]), false⟩

/-- An executed action with the block of bytes it was decoded from. -/
structure Decoded where
  action : MacroAction
  first : Nat
  size : Nat
  deriving DecidableEq, Repr

/-- What a call did: the addresses read in front of the player's loop and in it, the actions in
their order, and whether the call returned. -/
structure MacroRun where
  skipped : List Nat
  played : List Nat
  actions : List Decoded
  done : Bool
  deriving DecidableEq, Repr

/-- The first `fuel` rounds of the player's loop, from the cursor `p`. -/
def play (m : EepromMem) : Nat → Nat → MacroRun
  | 0, _ => ⟨[], [], [], false⟩
  | fuel + 1, p =>
    let step := macroStep m p
    let rest := if step.stop then ⟨[], [], [], true⟩ else play m fuel (p + step.read)
    { skipped := []
      played := List.range' p step.read ++ rest.played
      actions := (step.action.map fun a => ⟨a, p, step.read⟩).toList ++ rest.actions
      done := rest.done }

/-- `while (id > 0)`, with `n` bytes in front of `end`: where the cursor is behind the loop, if the
loop is not left at `end`. -/
def skipMacros (m : EepromMem) : Nat → Nat → Nat → Option Nat
  | _, 0, p => some p
  | 0, _ + 1, _ => none
  | n + 1, id + 1, p => skipMacros m n (if m p = 0 then id else id + 1) (p + 1)

def dynamicKeymapMacroSend (f : Firmware) (m : EepromMem) (id : UInt8) (fuel : Nat) : MacroRun :=
  let start := f.dims.dynamicKeymapMacroEepromAddr
  let size := f.dims.dynamicKeymapMacroEepromSize
  if id ≥ f.macroCount then ⟨[], [], [], true⟩
  else if m (start + size - 1) ≠ 0 then ⟨[start + size - 1], [], [], true⟩
  else
    match skipMacros m size id.toNat start with
    | none => ⟨(start + size - 1) :: List.range' start size, [], [], true⟩
    | some p => { play m fuel p with skipped := (start + size - 1) :: List.range' start (p - start) }

/-- No byte in front of the terminator `t` is zero, from `p` on. -/
structure Terminated (m : EepromMem) (p t : Nat) : Prop where
  le : p ≤ t
  zero : m t = 0
  nonzero : ∀ a, p ≤ a → a < t → m a ≠ 0

/-- The `id`-th zero-terminated segment of the macro area has the bytes from `s` up to the
terminator at `t`. -/
structure IsSegment (d : Dims) (m : EepromMem) (id s t : Nat) : Prop extends Terminated m s t where
  start_le : d.dynamicKeymapMacroEepromAddr ≤ s
  lt_end : t < d.dynamicKeymapMacroEepromAddr + d.dynamicKeymapMacroEepromSize
  index : (m.readBlock d.dynamicKeymapMacroEepromAddr (s - d.dynamicKeymapMacroEepromAddr)).count 0 = id
  first : s = d.dynamicKeymapMacroEepromAddr ∨ m (s - 1) = 0

inductive Expects where
  | instruction
  | code
  | operand
  | twoOperands
  | twoDelays
  | delay
  deriving DecidableEq, Repr

def Expects.read : Expects → UInt8 → Expects
  | .instruction, c => if c = ssQmkPrefix then .code else .instruction
  | .code, c =>
    if IsKeyCode c then .operand
    else if IsExtCode c then .twoOperands
    else if c = ssDelayCode then .twoDelays
    else .instruction
  | .operand, _ => .instruction
  | .twoOperands, _ => .operand
  | .twoDelays, _ => .delay
  | .delay, _ => .instruction

/-- Where the terminator follows, the player notices it: it expects an instruction, the code of one
or the second byte of a delay. -/
def WellEnded (bytes : List UInt8) : Prop :=
  bytes.foldl Expects.read .instruction ∈ [Expects.instruction, .code, .delay]
deriving Decidable

/-- A call plays its own macro only: it reads inside the macro area, decodes every action from the
segment of `id`, does not play past the segment's terminator, and returns. -/
structure MacroIsolated (f : Firmware) (m : EepromMem) (id : UInt8) : Prop where
  inside : ∀ fuel, ∀ a ∈ (dynamicKeymapMacroSend f m id fuel).skipped ++
      (dynamicKeymapMacroSend f m id fuel).played,
    f.dims.dynamicKeymapMacroEepromAddr ≤ a ∧
      a < f.dims.dynamicKeymapMacroEepromAddr + f.dims.dynamicKeymapMacroEepromSize
  decoded : ∀ fuel, ∀ x ∈ (dynamicKeymapMacroSend f m id fuel).actions,
    ∃ s t, IsSegment f.dims m id.toNat s t ∧ s ≤ x.first ∧ x.first + x.size ≤ t
  stops : ∀ s t, IsSegment f.dims m id.toNat s t →
    ∀ fuel, ∀ a ∈ (dynamicKeymapMacroSend f m id fuel).played, a ≤ t
  returns : ∃ fuel, (dynamicKeymapMacroSend f m id fuel).done = true

section Rounds

variable {m : EepromMem} {p t : Nat}

theorem macroStep_read_pos (m : EepromMem) (p : Nat) : 0 < (macroStep m p).read := by
  simp only [macroStep]
  split_ifs <;> simp

/-- A round that starts inside a segment stays in front of the terminator, or ends at the terminator
and leaves the loop, or takes the terminator for the operand of an instruction. -/
theorem macroStep_cases (h : Terminated m p t) :
    ((macroStep m p).stop = false ∧ p + (macroStep m p).read ≤ t ∧
      (m.readBlock p (macroStep m p).read).foldl Expects.read .instruction = .instruction) ∨
    ((macroStep m p).stop = true ∧ p + (macroStep m p).read = t + 1 ∧
      (macroStep m p).action = none ∧ WellEnded (m.readBlock p (t - p))) ∨
    ((macroStep m p).action = none ∧ ¬ WellEnded (m.readBlock p (t - p)) ∧
      ((macroStep m p).stop = false ∧ p + (macroStep m p).read = t + 1 ∨
        t + 1 < p + (macroStep m p).read)) := by
  obtain ⟨hle, hz, hnz⟩ := h
  obtain ⟨n, rfl⟩ := Nat.exists_eq_add_of_le hle
  rw [Nat.add_sub_cancel_left]
  have h0 : 0 < n → m p ≠ 0 := fun hn => hnz p (by omega) (by omega)
  have h1 : 1 < n → m (p + 1) ≠ 0 := fun hn => hnz (p + 1) (by omega) (by omega)
  have h2 : 2 < n → m (p + 2) ≠ 0 := fun hn => hnz (p + 2) (by omega) (by omega)
  have h3 : 3 < n → m (p + 3) ≠ 0 := fun hn => hnz (p + 3) (by omega) (by omega)
  clear hnz hle
  -- The cases follow the player: which byte it looks at next, and whether that is the terminator.
  rcases n with _ | n
  · right; left
    simp_all [macroStep, WellEnded, Mem.readBlock]
  have h0 := h0 (by omega)
  by_cases c0 : m p = ssQmkPrefix
  swap
  · left
    simp [macroStep, h0, c0, Mem.readBlock, Expects.read]
  have hp : (ssQmkPrefix = 0) = False := by decide
  rcases n with _ | n
  · right; left
    simp_all [macroStep, WellEnded, Mem.readBlock, Expects.read]
  have h1 := h1 (by omega)
  by_cases ckey : IsKeyCode (m (p + 1))
  · rcases n with _ | n
    · right; right
      simp_all [macroStep, WellEnded, Mem.readBlock, Expects.read]
    · left
      simp [macroStep, c0, hp, h1, ckey, Mem.readBlock, Expects.read]
  by_cases cext : IsExtCode (m (p + 1))
  · rcases n with _ | _ | n
    · right; right
      simp_all [macroStep, WellEnded, Mem.readBlock, Expects.read]
    · right; right
      have h2 := h2 (by omega)
      simp_all [macroStep, WellEnded, Mem.readBlock, Expects.read]
    · left
      have h2 := h2 (by omega)
      simp [macroStep, c0, hp, h1, h2, ckey, cext, Mem.readBlock, Expects.read]
  by_cases cdelay : m (p + 1) = ssDelayCode
  · rcases n with _ | _ | n
    · right; right
      simp_all [macroStep, WellEnded, Mem.readBlock, Expects.read]
    · right; left
      simp_all [macroStep, WellEnded, Mem.readBlock, Expects.read]
    · left
      have h2 := h2 (by omega)
      have h3 := h3 (by omega)
      rw [cdelay] at ckey cext h1
      simp [macroStep, c0, hp, h1, h2, h3, ckey, cext, cdelay, Mem.readBlock, Expects.read]
  left
  simp [macroStep, c0, hp, h1, ckey, cext, cdelay, Mem.readBlock, Expects.read]

end Rounds

section Playing

variable {m : EepromMem} {p t : Nat}

theorem Terminated.advance (h : Terminated m p t) {r : Nat} (hr : p + r ≤ t) :
    Terminated m (p + r) t :=
  ⟨hr, h.zero, fun a ha hat => h.nonzero a (by omega) hat⟩

theorem wellEnded_advance {r : Nat} (hr : p + r ≤ t)
    (hread : (m.readBlock p r).foldl Expects.read .instruction = .instruction) :
    WellEnded (m.readBlock p (t - p)) ↔ WellEnded (m.readBlock (p + r) (t - (p + r))) := by
  have hsplit : m.readBlock p (t - p) = m.readBlock p r ++ m.readBlock (p + r) (t - (p + r)) := by
    rw [← Mem.readBlock_append]
    congr 1
    omega
  rw [WellEnded, WellEnded, hsplit, List.foldl_append, hread]

theorem mem_play_played {fuel a : Nat} :
    a ∈ (play m (fuel + 1) p).played ↔
      (p ≤ a ∧ a < p + (macroStep m p).read) ∨
      ((macroStep m p).stop = false ∧ a ∈ (play m fuel (p + (macroStep m p).read)).played) := by
  simp only [play, List.mem_append, List.mem_range'_1]
  cases (macroStep m p).stop <;> simp

theorem mem_play_actions {fuel : Nat} {x : Decoded} :
    x ∈ (play m (fuel + 1) p).actions ↔
      ((macroStep m p).action = some x.action ∧ x.first = p ∧ x.size = (macroStep m p).read) ∨
      ((macroStep m p).stop = false ∧ x ∈ (play m fuel (p + (macroStep m p).read)).actions) := by
  obtain ⟨action, first, size⟩ := x
  simp only [play, List.mem_append, Option.mem_toList, Option.map_eq_some_iff, Decoded.mk.injEq]
  cases (macroStep m p).stop <;> simp [eq_comm]

theorem play_wellEnded (h : Terminated m p t) (hw : WellEnded (m.readBlock p (t - p))) :
    (∀ fuel, ∀ a ∈ (play m fuel p).played, p ≤ a ∧ a ≤ t) ∧
    (∀ fuel, ∀ x ∈ (play m fuel p).actions, p ≤ x.first ∧ x.first + x.size ≤ t) ∧
    ∃ fuel, (play m fuel p).done = true := by
  induction hn : t - p using Nat.strongRecOn generalizing p with
  | ind n ih =>
  have hpos := macroStep_read_pos m p
  rcases macroStep_cases h with ⟨hstop, hr, hread⟩ | ⟨hstop, hr, hnone, -⟩ | ⟨-, hbad, -⟩
  · obtain ⟨hplayed, hactions, fuel, hdone⟩ := ih _ (by omega) (h.advance hr)
      ((wellEnded_advance hr hread).mp hw) rfl
    refine ⟨?_, ?_, fuel + 1, ?_⟩
    · intro fuel a ha
      cases fuel with
      | zero => simp [play] at ha
      | succ fuel =>
        rcases mem_play_played.mp ha with ha | ⟨-, ha⟩
        · omega
        · have := hplayed fuel a ha
          omega
    · intro fuel x hx
      cases fuel with
      | zero => simp [play] at hx
      | succ fuel =>
        rcases mem_play_actions.mp hx with ⟨-, hfirst, hsize⟩ | ⟨-, hx⟩
        · omega
        · have := hactions fuel x hx
          omega
    · simp [play, hstop, hdone]
  · refine ⟨?_, ?_, 1, ?_⟩
    · intro fuel a ha
      cases fuel with
      | zero => simp [play] at ha
      | succ fuel =>
        rcases mem_play_played.mp ha with ha | ⟨hgo, -⟩
        · omega
        · simp [hstop] at hgo
    · intro fuel x hx
      cases fuel with
      | zero => simp [play] at hx
      | succ fuel =>
        rcases mem_play_actions.mp hx with ⟨hsome, -⟩ | ⟨hgo, -⟩
        · simp [hnone] at hsome
        · simp [hstop] at hgo
    · simp [play, hstop]
  · exact absurd hw hbad

/-- A segment that ends inside an instruction makes the player read behind its terminator. -/
theorem play_not_wellEnded (h : Terminated m p t) (hw : ¬ WellEnded (m.readBlock p (t - p))) :
    ∃ fuel, ∃ a ∈ (play m fuel p).played, t < a := by
  induction hn : t - p using Nat.strongRecOn generalizing p with
  | ind n ih =>
  have hpos := macroStep_read_pos m p
  rcases macroStep_cases h with ⟨hstop, hr, hread⟩ | ⟨-, -, -, hgood⟩ | ⟨-, -, hend⟩
  · obtain ⟨fuel, a, ha, hat⟩ := ih _ (by omega) (h.advance hr)
      (fun hbad => hw ((wellEnded_advance hr hread).mpr hbad)) rfl
    exact ⟨fuel + 1, a, mem_play_played.mpr (.inr ⟨hstop, ha⟩), hat⟩
  · exact absurd hgood hw
  · rcases hend with ⟨hstop, hr⟩ | hr
    · -- The next round starts behind the terminator.
      have hnext := macroStep_read_pos m (p + (macroStep m p).read)
      refine ⟨2, p + (macroStep m p).read, ?_, by omega⟩
      exact mem_play_played.mpr (.inr ⟨hstop, mem_play_played.mpr (.inl (by omega))⟩)
    · refine ⟨1, t + 1, mem_play_played.mpr (.inl ?_), by omega⟩
      have := h.le
      omega

end Playing

section Skipping

variable {m : EepromMem}

theorem skipMacros_none (n : Nat) : ∀ id p, skipMacros m n id p = none ↔
    (m.readBlock p n).count 0 < id := by
  induction n with
  | zero =>
    intro id p
    cases id <;> simp [skipMacros, Mem.readBlock]
  | succ n ih =>
    intro id p
    cases id with
    | zero => simp [skipMacros]
    | succ id =>
      rw [skipMacros, ih, Mem.readBlock, List.count_cons]
      by_cases hp : m p = 0 <;> simp [hp]

theorem skipMacros_some (n : Nat) : ∀ id p {q}, skipMacros m n id p = some q →
    p ≤ q ∧ q ≤ p + n ∧ (m.readBlock p (q - p)).count 0 = id ∧ (q = p ∨ m (q - 1) = 0) := by
  induction n with
  | zero =>
    intro id p q h
    cases id with
    | zero =>
      cases h
      simp [Mem.readBlock]
    | succ id => cases h
  | succ n ih =>
    intro id p q h
    cases id with
    | zero =>
      cases h
      simp [Mem.readBlock]
    | succ id =>
      obtain ⟨hle, hge, hcount, hlast⟩ := ih _ _ h
      have hread : m.readBlock p (q - p) = m p :: m.readBlock (p + 1) (q - (p + 1)) := by
        rw [show q - p = q - (p + 1) + 1 by omega, Mem.readBlock]
      refine ⟨by omega, by omega, ?_, ?_⟩
      · rw [hread, List.count_cons, hcount]
        by_cases hp : m p = 0 <;> simp [hp]
      · rcases hlast with rfl | hlast
        · -- The loop stopped behind this byte, so it was the last zero it looked for.
          right
          rw [Nat.add_sub_cancel]
          by_contra hp
          simp [hp, Mem.readBlock] at hcount
        · exact .inr hlast

theorem count_split (size : Nat) {start p : Nat} (hp : start ≤ p) (hp' : p ≤ start + size) :
    (m.readBlock start size).count 0 =
      (m.readBlock start (p - start)).count 0 + (m.readBlock p (start + size - p)).count 0 := by
  obtain ⟨k, rfl⟩ := Nat.exists_eq_add_of_le hp
  obtain ⟨l, rfl⟩ := Nat.exists_eq_add_of_le (show k ≤ size by omega)
  rw [Mem.readBlock_append, List.count_append, Nat.add_sub_cancel_left,
    show start + (k + l) - (start + k) = l by omega]

/-- Two places behind the same number of zeros, each right behind one, are the same place. -/
theorem behind_zero_unique {base s q : Nat} (hs : base ≤ s) (hsq : s ≤ q)
    (hcount : (m.readBlock base (s - base)).count 0 = (m.readBlock base (q - base)).count 0)
    (hq : q = base ∨ m (q - 1) = 0) : s = q := by
  by_contra hne
  have hsplit := count_split (m := m) (q - base) hs (by omega)
  rw [show base + (q - base) - s = q - s by omega] at hsplit
  have hpos : 0 < (m.readBlock s (q - s)).count 0 := by
    rw [List.count_pos_iff, Mem.mem_readBlock]
    refine ⟨q - 1 - s, by omega, ?_⟩
    rcases hq with rfl | hq
    · omega
    · rwa [show s + (q - 1 - s) = q - 1 by omega]
  omega

theorem exists_terminated {p e : Nat} (hpe : p ≤ e) (he : m e = 0) :
    ∃ t, t ≤ e ∧ Terminated m p t := by
  have hex : ∃ k, m (p + k) = 0 := ⟨e - p, by rwa [show p + (e - p) = e by omega]⟩
  refine ⟨p + Nat.find hex, ?_, by omega, Nat.find_spec hex, ?_⟩
  · have := Nat.find_min' hex (m := e - p) (by rwa [show p + (e - p) = e by omega])
    omega
  · intro a hpa hat hzero
    exact Nat.find_min hex (m := a - p) (by omega) (by rwa [show p + (a - p) = a by omega])

end Skipping

section Isolation

variable {f : Firmware} {m : EepromMem} {id : UInt8}

theorem macro_size_pos (f : Firmware) : 0 < f.dims.dynamicKeymapMacroEepromSize := by
  have hfits := f.geometry.fits
  simp only [Firmware.dims, Dims.dynamicKeymapMacroEepromSize]
  omega

theorem IsSegment.start_unique {d : Dims} {n s t q : Nat} (h : IsSegment d m n s t)
    (hq : d.dynamicKeymapMacroEepromAddr ≤ q)
    (hcount : (m.readBlock d.dynamicKeymapMacroEepromAddr
      (q - d.dynamicKeymapMacroEepromAddr)).count 0 = n)
    (hlast : q = d.dynamicKeymapMacroEepromAddr ∨ m (q - 1) = 0) : s = q := by
  rcases Nat.le_total s q with hsq | hqs
  · exact behind_zero_unique h.start_le hsq (h.index.trans hcount.symm) hlast
  · exact (behind_zero_unique hq hqs (hcount.trans h.index.symm) h.first).symm

theorem Terminated.unique {p t t' : Nat} (h : Terminated m p t) (h' : Terminated m p t') : t = t' := by
  rcases Nat.lt_trichotomy t t' with hlt | heq | hgt
  · exact absurd h.zero (h'.nonzero t h.le hlt)
  · exact heq
  · exact absurd h'.zero (h.nonzero t' h'.le hgt)

theorem macroSend_eq (fuel : Nat) (hid : id < f.macroCount)
    (hlast : m (f.dims.dynamicKeymapMacroEepromAddr + f.dims.dynamicKeymapMacroEepromSize - 1) = 0) :
    let start := f.dims.dynamicKeymapMacroEepromAddr
    let size := f.dims.dynamicKeymapMacroEepromSize
    dynamicKeymapMacroSend f m id fuel =
      match skipMacros m size id.toNat start with
      | none => ⟨(start + size - 1) :: List.range' start size, [], [], true⟩
      | some p => { play m fuel p with
          skipped := (start + size - 1) :: List.range' start (p - start) } := by
  intro start size
  rw [dynamicKeymapMacroSend, if_neg (UInt8.not_le.mpr hid), if_neg (not_not.mpr hlast)]

theorem isolated_of_none (hid : id < f.macroCount)
    (hlast : m (f.dims.dynamicKeymapMacroEepromAddr + f.dims.dynamicKeymapMacroEepromSize - 1) = 0)
    (hskip : skipMacros m f.dims.dynamicKeymapMacroEepromSize id.toNat
      f.dims.dynamicKeymapMacroEepromAddr = none) : MacroIsolated f m id := by
  have hsize := macro_size_pos f
  have hsend : ∀ fuel, dynamicKeymapMacroSend f m id fuel = _ := fun fuel => macroSend_eq fuel hid hlast
  simp only [hskip] at hsend
  refine ⟨?_, ?_, ?_, 0, ?_⟩
  · intro fuel a ha
    rw [hsend] at ha
    simp only [List.append_nil, List.mem_cons, List.mem_range'_1] at ha
    omega
  · intro fuel x hx
    simp [hsend] at hx
  · intro s t _ fuel a ha
    simp [hsend] at ha
  · rw [hsend]

theorem isolated_iff_of_segment {s t : Nat} (hid : id < f.macroCount)
    (hlast : m (f.dims.dynamicKeymapMacroEepromAddr + f.dims.dynamicKeymapMacroEepromSize - 1) = 0)
    (hskip : skipMacros m f.dims.dynamicKeymapMacroEepromSize id.toNat
      f.dims.dynamicKeymapMacroEepromAddr = some s)
    (hseg : IsSegment f.dims m id.toNat s t) :
    MacroIsolated f m id ↔ WellEnded (m.readBlock s (t - s)) := by
  have hsize := macro_size_pos f
  have hstart := hseg.start_le
  have hend := hseg.lt_end
  have hsend : ∀ fuel, dynamicKeymapMacroSend f m id fuel = _ := fun fuel => macroSend_eq fuel hid hlast
  simp only [hskip] at hsend
  constructor
  · intro hiso
    by_contra hw
    obtain ⟨fuel, a, ha, hat⟩ := play_not_wellEnded hseg.toTerminated hw
    have := hiso.stops s t hseg fuel a (by rw [hsend]; exact ha)
    omega
  · intro hw
    obtain ⟨hplayed, hactions, fuel, hdone⟩ := play_wellEnded hseg.toTerminated hw
    refine ⟨?_, ?_, ?_, fuel, ?_⟩
    · intro fuel a ha
      rw [hsend] at ha
      simp only [List.cons_append, List.mem_cons, List.mem_append, List.mem_range'_1] at ha
      rcases ha with rfl | ha | ha
      · omega
      · have := hseg.le
        omega
      · have := hplayed fuel a ha
        omega
    · intro fuel x hx
      rw [hsend] at hx
      exact ⟨s, t, hseg, hactions fuel x hx⟩
    · intro s' t' hseg' fuel a ha
      have hs : s' = s := hseg'.start_unique hseg.start_le hseg.index hseg.first
      subst hs
      rw [hseg'.toTerminated.unique hseg.toTerminated]
      rw [hsend] at ha
      exact (hplayed fuel a ha).2
    · rw [hsend]
      exact hdone

/-- For every content of the macro area that ends with a zero, a call plays its own macro only if and
only if the area does not end right in front of the macro, and the macro does not end inside an
instruction. -/
theorem macro_isolated_iff (f : Firmware) (m : EepromMem) (id : UInt8)
    (hlast : m (f.dims.dynamicKeymapMacroEepromAddr + f.dims.dynamicKeymapMacroEepromSize - 1) = 0)
    (hid : id < f.macroCount) :
    MacroIsolated f m id ↔
      (m.readBlock f.dims.dynamicKeymapMacroEepromAddr
        f.dims.dynamicKeymapMacroEepromSize).count 0 ≠ id.toNat ∧
      ∀ s t, IsSegment f.dims m id.toNat s t → WellEnded (m.readBlock s (t - s)) := by
  have hsize := macro_size_pos f
  cases hskip : skipMacros m f.dims.dynamicKeymapMacroEepromSize id.toNat
      f.dims.dynamicKeymapMacroEepromAddr with
  | none =>
    have hfew := (skipMacros_none _ _ _).mp hskip
    refine iff_of_true (isolated_of_none hid hlast hskip) ⟨by omega, ?_⟩
    intro s t hseg
    have hidx := hseg.index
    have hsplit := count_split (m := m) _ hseg.start_le (Nat.le_of_lt (Nat.lt_of_le_of_lt hseg.le hseg.lt_end))
    omega
  | some s =>
    obtain ⟨hle, hge, hidx, hfirst⟩ := skipMacros_some _ _ _ hskip
    have hsplit := count_split (m := m) _ hle hge
    rcases Nat.lt_or_ge s (f.dims.dynamicKeymapMacroEepromAddr + f.dims.dynamicKeymapMacroEepromSize)
      with hlt | hge'
    · obtain ⟨t, hte, hterm⟩ := exists_terminated (m := m) (p := s) (by omega) hlast
      have hseg : IsSegment f.dims m id.toNat s t := ⟨hterm, hle, by omega, hidx, hfirst⟩
      rw [isolated_iff_of_segment hid hlast hskip hseg]
      have hmore : 0 < (m.readBlock s (f.dims.dynamicKeymapMacroEepromAddr +
          f.dims.dynamicKeymapMacroEepromSize - s)).count 0 := by
        rw [List.count_pos_iff, Mem.mem_readBlock]
        have := hterm.le
        exact ⟨t - s, by omega, by rw [show s + (t - s) = t by omega, hterm.zero]⟩
      refine ⟨fun hw => ⟨by omega, ?_⟩, fun h => h.2 s t hseg⟩
      intro s' t' hseg'
      have hs : s' = s := hseg'.start_unique hle hidx hfirst
      subst hs
      rwa [hseg'.toTerminated.unique hseg.toTerminated]
    · -- The player starts behind the area.
      have hs : s = f.dims.dynamicKeymapMacroEepromAddr + f.dims.dynamicKeymapMacroEepromSize := by omega
      refine iff_of_false ?_ ?_
      · intro hiso
        have hread := (hiso.inside 1 s (List.mem_append_right _ ?_)).2
        · omega
        · rw [macroSend_eq 1 hid hlast, hskip]
          exact mem_play_played.mpr (.inl ⟨Nat.le_refl s, by have := macroStep_read_pos m s; omega⟩)
      · rintro ⟨hne, -⟩
        rw [hs, Nat.add_sub_cancel_left] at hidx
        exact hne hidx

/-- A macro area that starts with the given bytes, with zeros behind them. -/
def macroArea (f : Firmware) (bytes : List UInt8) : EepromMem := fun a =>
  bytes.getD (a - f.dims.dynamicKeymapMacroEepromAddr) 0

/-- A tap instruction cut behind its code, and a second macro that types an `a`: the first macro
plays the second one. -/
theorem cut_tap_plays_next : ¬ MacroIsolated .onePad (macroArea .onePad [1, 1, 0, 97]) 0 := by
  intro hiso
  obtain ⟨s, t, hseg, hs, ht⟩ := hiso.decoded 2 ⟨.sendStringWithDelay [97], 111, 1⟩ (by decide)
  have hzero : macroArea .onePad [1, 1, 0, 97] 110 = 0 := rfl
  rcases Nat.lt_or_ge 110 s with hlt | hge
  · -- The terminator of the first macro lies in front of the segment, so this is not the first one.
    have hidx := hseg.index
    have hpos : 0 < (Mem.readBlock (macroArea .onePad [1, 1, 0, 97])
        (Firmware.onePad).dims.dynamicKeymapMacroEepromAddr
        (s - (Firmware.onePad).dims.dynamicKeymapMacroEepromAddr)).count 0 := by
      rw [List.count_pos_iff, Mem.mem_readBlock]
      have haddr : (Firmware.onePad).dims.dynamicKeymapMacroEepromAddr = 108 := rfl
      rw [haddr]
      exact ⟨2, by omega, hzero⟩
    simp only [UInt8.toNat_zero] at hidx
    omega
  · exact hseg.nonzero 110 hge (by simp only at ht; omega) hzero

theorem macro_isolated_iff_onePad :
    MacroIsolated .onePad (macroArea .onePad [1, 1, 4, 0, 97]) 1 ↔
      (Mem.readBlock (macroArea .onePad [1, 1, 4, 0, 97])
        (Firmware.onePad).dims.dynamicKeymapMacroEepromAddr
        (Firmware.onePad).dims.dynamicKeymapMacroEepromSize).count 0 ≠ (1 : UInt8).toNat ∧
      ∀ s t, IsSegment (Firmware.onePad).dims (macroArea .onePad [1, 1, 4, 0, 97]) (1 : UInt8).toNat s t →
        WellEnded (Mem.readBlock (macroArea .onePad [1, 1, 4, 0, 97]) s (t - s)) :=
  macro_isolated_iff .onePad (macroArea .onePad [1, 1, 4, 0, 97]) 1 (by decide) (by decide)

end Isolation

end Keys
end VialQmk
