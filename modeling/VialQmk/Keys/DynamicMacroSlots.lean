import Mathlib.Tactic.Ring
import VialQmk.Keys.DynamicMacro

/-!
# Keys.DynamicMacroSlots

The two macros of the buffer against the keys that came. `MacroSpec` is the component as a user sees it: a
list of records for each slot, and the recording in progress. It is told from the keys alone, with nothing of
what the code makes of them.

* `Refines`: the buffer, read from its two ends, holds the two lists.
* `dynamic_macros`: over every run the buffer refines the specification, keys are stored inside it only,
  and each key that plays a slot passes on the list of the slot, as long as playing a record does not change
  it and stores no key in a cell that is still to be played.
* `second_playback_differs`: a macro with a one-shot layer key is changed by its first playback.
-/

namespace VialQmk
namespace Keys

/-! ## What a recording keeps -/

/-- What a recording stores of its keys: no releases in front, and not more than fit. -/
def storedKeys (capacity : Nat) (keys : List Record) : List Record :=
  (keys.dropWhile fun r => !r.event.pressed).take capacity

def trimmedKeys (capacity : Nat) (keys : List Record) : List Record :=
  (storedKeys capacity keys).rdropWhile fun r => r.event.pressed

structure MacroSpec where
  content : MacroSlot → List Record
  recording : Option (MacroSlot × List Record)

namespace MacroSpec

def empty : MacroSpec := ⟨fun _ => [], none⟩

def capacity (size : Nat) (spec : MacroSpec) (slot : MacroSlot) : Nat :=
  size - (spec.content slot.other).length

/-- The recording in progress becomes the content of its slot. -/
def stop (size : Nat) (spec : MacroSpec) : MacroSpec :=
  match spec.recording with
  | none => spec
  | some (slot, keys) =>
    { content := Function.update spec.content slot (trimmedKeys (spec.capacity size slot) keys)
      recording := none }

end MacroSpec

/-- A key that ends a recording: the stop key pressed, or a start key released. -/
def StopsMacro (keycode : Nat) (record : Record) : Prop :=
  (keycode = qkDynamicMacroRecordStop ∧ record.event.pressed = true) ∨
    ((recordStartSlot keycode).isSome ∧ record.event.pressed = false)
deriving Decidable

def BelongsToMacro (noNesting : Bool) (keycode : Nat) (valid : Bool) : Prop :=
  keycode ≠ qkDynamicMacroRecordStop ∧ recordStartSlot keycode = none ∧
    (noNesting = true → playSlot keycode = none) ∧ valid = true
deriving Decidable

/-- What a key means to the macros; a start key counts when it is released. -/
def MacroSpec.key (cfg : DynamicMacroConfig) (keycode : Nat) (record : Record) (valid : Bool) (spec : MacroSpec) :
    MacroSpec :=
  match spec.recording with
  | none =>
    match recordStartSlot keycode with
    | some slot => if record.event.pressed = true then spec else { spec with recording := some (slot, []) }
    | none => spec
  | some (slot, keys) =>
    if StopsMacro keycode record then spec.stop cfg.size
    else if BelongsToMacro cfg.noNesting keycode valid then { spec with recording := some (slot, keys ++ [record]) }
    else spec

def MacroSpec.step (cfg : DynamicMacroConfig) (spec : MacroSpec) : MacroEntry → MacroSpec
  | .key keycode record valid => spec.key cfg keycode record valid
  | .stop => spec.stop cfg.size
  | .stored _ | .played _ _ _ | .changed _ | .overtaken _ => spec

def macroSpec (cfg : DynamicMacroConfig) (log : List MacroEntry) : MacroSpec :=
  log.foldl (MacroSpec.step cfg) .empty

@[simp]
theorem macroSpec_snoc (cfg : DynamicMacroConfig) (log : List MacroEntry) (e : MacroEntry) :
    macroSpec cfg (log ++ [e]) = (macroSpec cfg log).step cfg e := by
  simp [macroSpec]

theorem storedKeys_length (capacity : Nat) (keys : List Record) :
    (storedKeys capacity keys).length ≤ capacity := by
  rw [storedKeys, List.length_take]
  exact Nat.min_le_left _ _

theorem trimmedKeys_prefix (capacity : Nat) (keys : List Record) :
    trimmedKeys capacity keys <+: storedKeys capacity keys := List.rdropWhile_prefix _ _

theorem storedKeys_snoc (capacity : Nat) (keys : List Record) (r : Record) :
    storedKeys capacity (keys ++ [r]) =
      if r.event.pressed = false ∧ (keys.dropWhile fun r => !r.event.pressed) = [] then
        storedKeys capacity keys
      else if (storedKeys capacity keys).length < capacity then storedKeys capacity keys ++ [r]
      else storedKeys capacity keys := by
  by_cases hfront : (keys.dropWhile fun r => !r.event.pressed) = []
  · have hdrop : ((keys ++ [r]).dropWhile fun r => !r.event.pressed) =
        [r].dropWhile fun r => !r.event.pressed := by
      refine List.dropWhile_append_of_pos fun q hq => ?_
      exact List.dropWhile_eq_nil_iff.mp hfront q hq
    cases hp : r.event.pressed with
    | false => simp [storedKeys, hdrop, hfront, hp]
    | true =>
      simp only [storedKeys, hdrop, hfront, hp, List.take_nil, List.length_nil, List.nil_append,
        List.dropWhile_cons, Bool.not_true, Bool.false_eq_true, if_false, false_and, reduceCtorEq]
      split
      · rename_i hcap
        exact List.take_of_length_le hcap
      · rename_i hcap
        rw [Nat.eq_zero_of_not_pos hcap, List.take_zero]
  · have hdrop : ((keys ++ [r]).dropWhile fun r => !r.event.pressed) =
        (keys.dropWhile fun r => !r.event.pressed) ++ [r] := by
      rw [List.dropWhile_append, if_neg]
      intro hempty
      exact hfront (List.isEmpty_iff.mp hempty)
    rw [if_neg fun h => hfront h.2, storedKeys, storedKeys, hdrop, List.length_take]
    generalize (keys.dropWhile fun r => !r.event.pressed) = kept
    split
    · rename_i hlt
      rw [List.take_of_length_le (by omega : kept.length ≤ capacity),
        List.take_of_length_le (by simp; omega)]
    · rename_i hge
      rw [List.take_append_of_le_length (by omega)]

/-! ## A list in the buffer -/

/-- The buffer, read from `p` in steps of `d`, begins with the list. -/
def Holds (buffer : Int → Record) (d : Int) : Int → List Record → Prop
  | _, [] => True
  | p, r :: rs => buffer p = r ∧ Holds buffer d (p + d) rs

section Cells

variable {buffer : Int → Record} {d : Int}

theorem holds_append {p : Int} {rs qs : List Record} :
    Holds buffer d p (rs ++ qs) ↔ Holds buffer d p rs ∧ Holds buffer d (p + d * rs.length) qs := by
  induction rs generalizing p with
  | nil => simp [Holds]
  | cons r rs ih =>
    have hp : p + d + d * (rs.length : Int) = p + d * ((r :: rs).length : Int) := by
      push_cast [List.length_cons]
      ring
    simp only [List.cons_append, Holds, ih, hp, and_assoc]

theorem Holds.of_prefix {p : Int} {rs qs : List Record} (h : Holds buffer d p qs) (hpre : rs <+: qs) :
    Holds buffer d p rs := by
  obtain ⟨ts, rfl⟩ := hpre
  exact (holds_append.mp h).1

theorem Holds.update {p q : Int} {r : Record} {rs : List Record} (h : Holds buffer d p rs)
    (hq : ∀ k : Nat, k < rs.length → p + d * k ≠ q) : Holds (Function.update buffer q r) d p rs := by
  induction rs generalizing p with
  | nil => trivial
  | cons r₁ rs ih =>
    have hp : p ≠ q := by simpa using hq 0 (by simp)
    refine ⟨by rw [Function.update_of_ne hp]; exact h.1, ih h.2 fun k hk heq => ?_⟩
    refine hq (k + 1) (by simpa using hk) ?_
    rw [← heq]
    push_cast
    ring

theorem trimLoop_holds {p : Int} {rs : List Record} (hd : d ≠ 0) (h : Holds buffer d p rs) :
    trimLoop buffer p d rs.length (p + d * rs.length) =
      p + d * (rs.rdropWhile fun r => r.event.pressed).length := by
  induction rs using List.reverseRecOn with
  | nil => simp [trimLoop]
  | append_singleton rs r ih =>
    obtain ⟨hrs, hr, -⟩ := holds_append.mp h
    have hback : p + d * ((rs ++ [r]).length : Int) - d = p + d * rs.length := by
      push_cast [List.length_append, List.length_singleton]
      ring
    have hne : p + d * ((rs ++ [r]).length : Int) ≠ p := by
      intro heq
      have hzero : d * ((rs ++ [r]).length : Int) = 0 := by omega
      rcases mul_eq_zero.mp hzero with h0 | h0
      · exact hd h0
      · simp at h0
        omega
    have hlen : (rs ++ [r]).length = rs.length + 1 := by simp
    rw [hlen, trimLoop, ← hlen, hback, hr]
    cases hp : r.event.pressed with
    | false =>
      rw [if_neg (by simp), List.rdropWhile_concat_neg _ _ _ (by simp [hp])]
    | true => rw [if_pos ⟨hne, rfl⟩, ih hrs,
        List.rdropWhile_concat_pos (fun r : Record => r.event.pressed) rs r hp]

end Cells

theorem MacroSlot.direction_ne_zero (slot : MacroSlot) : slot.direction ≠ 0 := by cases slot <;> decide

@[simp]
theorem MacroSlot.other_other (slot : MacroSlot) : slot.other.other = slot := by cases slot <;> rfl

theorem MacroSlot.eq_or_eq_other (slot slot' : MacroSlot) : slot' = slot ∨ slot' = slot.other := by
  cases slot <;> cases slot' <;> simp [other]

/-! ## The refinement -/

section Machine

variable {σ : Type} {E : MacroEnv σ} {cfg : DynamicMacroConfig}

def DynamicMacroConfig.cell (cfg : DynamicMacroConfig) (slot : MacroSlot) (k : Nat) : Int :=
  cfg.slotBuffer slot + slot.direction * k

variable {nested : NestedMacro σ} {k : Nat} {e : MacroEntry} {record : Record} {s' : MacroState σ}

theorem cell_inside {slot : MacroSlot} (h : k < cfg.size) : 0 ≤ cfg.cell slot k ∧ cfg.cell slot k < cfg.size := by
  cases slot <;> simp [DynamicMacroConfig.cell, DynamicMacroConfig.slotBuffer, MacroSlot.direction] <;> omega

theorem cell_other_ne {slot : MacroSlot} {j : Nat} (h : j + k + 1 < cfg.size) :
    cfg.cell slot.other j ≠ cfg.cell slot k := by
  cases slot <;>
    simp [DynamicMacroConfig.cell, DynamicMacroConfig.slotBuffer, MacroSlot.direction, MacroSlot.other] <;> omega

theorem cell_ne {slot : MacroSlot} {j : Nat} (h : j < k) : cfg.cell slot j ≠ cfg.cell slot k := by
  cases slot <;> simp [DynamicMacroConfig.cell, MacroSlot.direction] <;> omega

theorem cell_sub_direction_ne {slot : MacroSlot} {j : Nat} :
    cfg.cell slot k - slot.direction ≠ cfg.cell slot.other j ↔ j + k ≠ cfg.size := by
  rw [ne_eq, ne_eq, not_iff_not]
  cases slot <;>
    simp only [DynamicMacroConfig.cell, DynamicMacroConfig.slotBuffer, MacroSlot.direction, MacroSlot.other] <;>
    omega

theorem cell_succ {slot : MacroSlot} : cfg.cell slot k + slot.direction = cfg.cell slot (k + 1) := by
  rw [DynamicMacroConfig.cell, DynamicMacroConfig.cell]
  push_cast
  ring

theorem cell_eq_slotBuffer {slot : MacroSlot} : cfg.cell slot k = cfg.slotBuffer slot ↔ k = 0 := by
  cases slot <;> simp [DynamicMacroConfig.cell, MacroSlot.direction]

theorem natAbs_cell_sub {slot : MacroSlot} : (cfg.cell slot k - cfg.slotBuffer slot).natAbs = k := by
  cases slot <;> simp [DynamicMacroConfig.cell, MacroSlot.direction]

structure Refines (cfg : DynamicMacroConfig) (spec : MacroSpec) (s : MacroState σ) : Prop where
  fits : ∀ slot, (spec.content slot).length + (spec.content slot.other).length ≤ cfg.size
  ends : ∀ slot, s.slotEnd slot = cfg.cell slot (spec.content slot).length
  id : s.macroId = spec.recording.map Prod.fst
  kept : ∀ slot, s.macroId ≠ some slot →
    Holds s.macroBuffer slot.direction (cfg.slotBuffer slot) (spec.content slot)
  stored : ∀ slot keys, spec.recording = some (slot, keys) →
    s.macroPointer = cfg.cell slot (storedKeys (spec.capacity cfg.size slot) keys).length ∧
      Holds s.macroBuffer slot.direction (cfg.slotBuffer slot) (storedKeys (spec.capacity cfg.size slot) keys)

variable {spec : MacroSpec} {s : MacroState σ}

theorem initial_refines (buffer : Int → Record) (env : σ) : Refines cfg .empty (.initial cfg buffer env) where
  fits _ := Nat.zero_le _
  ends slot := by
    cases slot <;> simp [MacroState.initial, MacroState.slotEnd, DynamicMacroConfig.cell,
      DynamicMacroConfig.slotBuffer, MacroSpec.empty]
  id := rfl
  kept _ _ := trivial
  stored _ _ h := by cases h

theorem Refines.environment (h : Refines cfg spec s) (env : σ) : Refines cfg spec { s with env := env } :=
  ⟨h.fits, fun slot => by have := h.ends slot; cases slot <;> exact this, h.id, h.kept, h.stored⟩

theorem Refines.write (h : Refines cfg spec s) (e : MacroEntry) : Refines cfg spec (s.write e) :=
  ⟨h.fits, fun slot => by have := h.ends slot; cases slot <;> exact this, h.id, h.kept, h.stored⟩

theorem Refines.idle (h : Refines cfg spec s) (hid : s.macroId = none) : spec.recording = none := by
  rw [h.id, Option.map_eq_none_iff] at hid
  exact hid

theorem Refines.recording (h : Refines cfg spec s) {slot : MacroSlot} (hid : s.macroId = some slot) :
    ∃ keys, spec.recording = some (slot, keys) := by
  rw [h.id] at hid
  obtain ⟨⟨_, keys⟩, hrec, rfl⟩ := Option.map_eq_some_iff.mp hid
  exact ⟨keys, hrec⟩

theorem Refines.recordStart (h : Refines cfg spec s) (hid : s.macroId = none) (slot : MacroSlot) :
    Refines cfg { spec with recording := some (slot, []) } (dynamicMacroRecordStart E cfg slot s) := by
  constructor
  · exact h.fits
  · intro slot'
    have hends := h.ends slot'
    cases slot' <;> exact hends
  · rfl
  · intro slot' _
    exact h.kept slot' (by simp [hid])
  · intro slot' keys hrec
    obtain ⟨rfl, rfl⟩ := Prod.mk.injEq .. ▸ Option.some.inj hrec
    simp [dynamicMacroRecordStart, storedKeys, DynamicMacroConfig.cell, Holds]

theorem Refines.limit (h : Refines cfg spec s) {slot : MacroSlot} {keys : List Record}
    (hrec : spec.recording = some (slot, keys)) :
    s.macroPointer - slot.direction ≠ s.slotEnd slot.other ↔
      (storedKeys (spec.capacity cfg.size slot) keys).length < spec.capacity cfg.size slot := by
  have hlen := storedKeys_length (spec.capacity cfg.size slot) keys
  have hfits := h.fits slot
  rw [(h.stored slot keys hrec).1, h.ends, cell_sub_direction_ne]
  rw [MacroSpec.capacity] at hlen ⊢
  omega

theorem Refines.keyLost (h : Refines cfg spec s) {slot : MacroSlot} {keys : List Record}
    (hrec : spec.recording = some (slot, keys))
    (hlost : storedKeys (spec.capacity cfg.size slot) (keys ++ [record]) =
      storedKeys (spec.capacity cfg.size slot) keys) :
    Refines cfg { spec with recording := some (slot, keys ++ [record]) } s := by
  refine ⟨h.fits, h.ends, ?_, h.kept, ?_⟩
  · rw [h.id, hrec]
    rfl
  · intro slot' keys' hrec'
    obtain ⟨rfl, rfl⟩ := Prod.mk.injEq .. ▸ Option.some.inj hrec'
    have hstored := h.stored slot keys hrec
    rw [← hlost] at hstored
    exact hstored

theorem Refines.keyStored (h : Refines cfg spec s) {slot : MacroSlot} {keys : List Record}
    (hrec : spec.recording = some (slot, keys))
    (hroom : (storedKeys (spec.capacity cfg.size slot) keys).length < spec.capacity cfg.size slot)
    (hkept : storedKeys (spec.capacity cfg.size slot) (keys ++ [record]) =
      storedKeys (spec.capacity cfg.size slot) keys ++ [record]) (log : List MacroEntry) :
    Refines cfg { spec with recording := some (slot, keys ++ [record]) } { s with
      macroBuffer := Function.update s.macroBuffer s.macroPointer record
      macroPointer := s.macroPointer + slot.direction
      log := log } := by
  obtain ⟨hptr, hcells⟩ := h.stored slot keys hrec
  have hid : s.macroId = some slot := by rw [h.id, hrec]; rfl
  have hcap : spec.capacity cfg.size slot = cfg.size - (spec.content slot.other).length := rfl
  constructor
  · exact h.fits
  · intro slot'
    have hends := h.ends slot'
    cases slot' <;> exact hends
  · rw [hid]
    rfl
  · intro slot' hne
    have hother : slot' = slot.other := by
      rcases slot.eq_or_eq_other slot' with rfl | hother
      · exact absurd hid hne
      · exact hother
    subst hother
    refine (h.kept _ hne).update fun k hk => ?_
    rw [hptr]
    exact cell_other_ne (by omega)
  · intro slot' keys' hrec'
    obtain ⟨rfl, rfl⟩ := Prod.mk.injEq .. ▸ Option.some.inj hrec'
    change _ = cfg.cell slot (storedKeys (spec.capacity cfg.size slot) (keys ++ [record])).length ∧
      Holds _ _ _ (storedKeys (spec.capacity cfg.size slot) (keys ++ [record]))
    rw [hkept, hptr, cell_succ, List.length_append, List.length_singleton]
    refine ⟨rfl, holds_append.mpr ⟨hcells.update fun k hk => ?_, ?_, trivial⟩⟩
    · intro heq
      exact absurd heq (cell_ne (by omega))
    · exact Function.update_self _ _ _

def StoredInside (cfg : DynamicMacroConfig) (before after : List MacroEntry) : Prop :=
  after = before ∨ ∃ cell : Int, after = before ++ [.stored cell] ∧ 0 ≤ cell ∧ cell < cfg.size

theorem Refines.recordKey (h : Refines cfg spec s) {slot : MacroSlot} {keys : List Record}
    (hrec : spec.recording = some (slot, keys)) (record : Record) :
    Refines cfg { spec with recording := some (slot, keys ++ [record]) }
        (dynamicMacroRecordKey E cfg slot record s) ∧
      StoredInside cfg s.log (dynamicMacroRecordKey E cfg slot record s).log := by
  have hsnoc := storedKeys_snoc (spec.capacity cfg.size slot) keys record
  have hptr := (h.stored slot keys hrec).1
  have hstart : s.macroPointer = cfg.slotBuffer slot ↔
      storedKeys (spec.capacity cfg.size slot) keys = [] := by
    rw [hptr, cell_eq_slotBuffer, List.length_eq_zero_iff]
  rw [dynamicMacroRecordKey]
  by_cases hleading : record.event.pressed = false ∧ s.macroPointer = cfg.slotBuffer slot
  · -- a release in front
    rw [if_pos hleading]
    refine ⟨h.keyLost hrec ?_, .inl rfl⟩
    have hnil := hstart.mp hleading.2
    rw [hsnoc]
    split
    · rfl
    · rename_i hkeys
      rw [if_neg]
      intro hroom
      rw [storedKeys, List.take_eq_nil_iff] at hnil
      rcases hnil with hzero | hnil
      · omega
      · exact hkeys ⟨hleading.1, hnil⟩
  · rw [if_neg hleading]
    have hfront : ¬ (record.event.pressed = false ∧ (keys.dropWhile fun r => !r.event.pressed) = []) := by
      rintro ⟨hreleased, hnil⟩
      exact hleading ⟨hreleased, hstart.mpr (by rw [storedKeys, hnil, List.take_nil])⟩
    rw [if_neg hfront] at hsnoc
    by_cases hlimit : s.macroPointer - slot.direction ≠ s.slotEnd slot.other
    · have hroom := (h.limit hrec).mp hlimit
      rw [if_pos hroom] at hsnoc
      rw [if_pos hlimit]
      refine ⟨(h.keyStored hrec hroom hsnoc _).environment _, .inr ⟨s.macroPointer, rfl, ?_⟩⟩
      rw [hptr]
      exact cell_inside (Nat.lt_of_lt_of_le hroom (Nat.sub_le _ _))
    · rw [if_neg fun hroom => hlimit ((h.limit hrec).mpr hroom)] at hsnoc
      rw [if_neg hlimit]
      exact ⟨(h.keyLost hrec hsnoc).environment _, .inl rfl⟩

theorem Refines.trimmed (h : Refines cfg spec s) {slot : MacroSlot} {keys : List Record}
    (hrec : spec.recording = some (slot, keys)) :
    trimLoop s.macroBuffer (cfg.slotBuffer slot) slot.direction
        (s.macroPointer - cfg.slotBuffer slot).natAbs s.macroPointer =
      cfg.cell slot (trimmedKeys (spec.capacity cfg.size slot) keys).length := by
  obtain ⟨hptr, hcells⟩ := h.stored slot keys hrec
  rw [hptr, natAbs_cell_sub]
  exact trimLoop_holds slot.direction_ne_zero hcells

theorem Refines.stopRecording (h : Refines cfg spec s) :
    Refines cfg (spec.stop cfg.size) (dynamicMacroStopRecording E cfg s) := by
  cases hid : s.macroId with
  | none =>
    simp only [dynamicMacroStopRecording, hid, MacroSpec.stop, h.idle hid]
    exact h
  | some slot =>
    obtain ⟨keys, hrec⟩ := h.recording hid
    obtain ⟨hptr, hcells⟩ := h.stored slot keys hrec
    have hend := h.trimmed hrec
    have hpre := trimmedKeys_prefix (spec.capacity cfg.size slot) keys
    have hlen : (trimmedKeys (spec.capacity cfg.size slot) keys).length + (spec.content slot.other).length ≤
        cfg.size := by
      have hfits := h.fits slot
      have hstored := storedKeys_length (spec.capacity cfg.size slot) keys
      have htrimmed := hpre.length_le
      rw [MacroSpec.capacity] at hstored htrimmed ⊢
      omega
    have hne : slot.other ≠ slot := by cases slot <;> decide
    have hends : ∀ slot', (dynamicMacroRecordEnd E cfg slot s).slotEnd slot' =
        if slot' = slot then cfg.cell slot (trimmedKeys (spec.capacity cfg.size slot) keys).length
        else s.slotEnd slot' := by
      intro slot'
      rw [← hend]
      cases slot <;> cases slot' <;> rfl
    simp only [dynamicMacroStopRecording, hid, MacroSpec.stop, hrec]
    constructor
    · intro slot'
      dsimp only
      rcases slot.eq_or_eq_other slot' with rfl | rfl
      · rw [Function.update_self, Function.update_of_ne hne]
        exact hlen
      · rw [MacroSlot.other_other, Function.update_self, Function.update_of_ne hne]
        omega
    · intro slot'
      have hslotEnd := hends slot'
      dsimp only
      rcases slot.eq_or_eq_other slot' with rfl | rfl
      · rw [Function.update_self]
        rw [if_pos rfl] at hslotEnd
        cases slot' <;> exact hslotEnd
      · rw [Function.update_of_ne hne]
        rw [if_neg hne, h.ends] at hslotEnd
        cases slot <;> exact hslotEnd
    · rfl
    · intro slot' _
      have hbuffer : (dynamicMacroRecordEnd E cfg slot s).macroBuffer = s.macroBuffer := by
        cases slot <;> rfl
      simp only [hbuffer]
      rcases slot.eq_or_eq_other slot' with rfl | rfl
      · rw [Function.update_self]
        exact hcells.of_prefix hpre
      · rw [Function.update_of_ne hne]
        exact h.kept _ (by rw [hid]; simpa using hne.symm)
    · intro slot' keys' hrec'
      cases hrec'

@[simp]
theorem dynamicMacroStopRecording_log (s : MacroState σ) : (dynamicMacroStopRecording E cfg s).log = s.log := by
  rw [dynamicMacroStopRecording]
  split
  · rfl
  · rename_i slot _
    cases slot <;> rfl

/-! ## Playing -/

def MacroEntry.isAccident : MacroEntry → Bool
  | .changed _ | .overtaken _ => true
  | _ => false

/-- No record was changed by its own playback, and none was overwritten before it was played. -/
def NoAccident (log : List MacroEntry) : Prop := ∀ e ∈ log, e.isAccident = false
deriving Decidable

theorem NoAccident.of_prefix {log log' : List MacroEntry} (h : NoAccident log') (hpre : log <+: log') :
    NoAccident log := fun e he => h e (hpre.subset he)

/-- Keys were stored inside the buffer, and a playback passed on what its slot held when it began. -/
structure FaithfulLog (cfg : DynamicMacroConfig) (log : List MacroEntry) : Prop where
  inside : ∀ cell : Int, .stored cell ∈ log → 0 ≤ cell ∧ cell < cfg.size
  played : ∀ pre slot start records post, log = pre ++ .played slot start records :: post →
    records = (macroSpec cfg (pre.take start)).content slot

theorem FaithfulLog.snoc {log : List MacroEntry} (h : FaithfulLog cfg log)
    (hstored : ∀ cell : Int, e = .stored cell → 0 ≤ cell ∧ cell < cfg.size)
    (hplayed : ∀ slot start records, e = .played slot start records →
      records = (macroSpec cfg (log.take start)).content slot) : FaithfulLog cfg (log ++ [e]) := by
  constructor
  · intro cell hmem
    rcases List.mem_append.mp hmem with hmem | hmem
    · exact h.inside cell hmem
    · exact hstored cell (List.mem_singleton.mp hmem).symm
  · intro pre slot start records post heq
    induction post using List.reverseRecOn with
    | nil =>
      obtain ⟨rfl, he⟩ := List.append_inj' heq rfl
      exact hplayed slot start records (List.singleton_injective he)
    | append_singleton post e' _ =>
      rw [← List.cons_append, ← List.append_assoc] at heq
      exact h.played pre slot start records post (List.append_inj' heq rfl).1

/-- The state holds what the specification says after the keys of its log. -/
structure KeepsUp (cfg : DynamicMacroConfig) (s : MacroState σ) : Prop where
  refines : Refines cfg (macroSpec cfg s.log) s
  log : FaithfulLog cfg s.log

theorem initial_follows (buffer : Int → Record) (env : σ) : KeepsUp cfg (.initial cfg buffer env) where
  refines := initial_refines buffer env
  log := by
    constructor
    · intro _ h
      cases h
    · intro pre _ _ _ _ h
      cases pre <;> cases h

theorem KeepsUp.environment (h : KeepsUp cfg s) (env : σ) : KeepsUp cfg { s with env := env } :=
  ⟨h.refines.environment env, h.log⟩

theorem KeepsUp.logged (h : KeepsUp cfg s) (hspec : (macroSpec cfg s.log).step cfg e = macroSpec cfg s.log)
    (hlog : FaithfulLog cfg (s.log ++ [e])) : KeepsUp cfg (s.write e) := by
  refine ⟨?_, hlog⟩
  have hspec' : macroSpec cfg (s.write e).log = macroSpec cfg s.log := by
    rw [MacroState.write, macroSpec_snoc, hspec]
  rw [hspec']
  exact h.refines.write e

/-- Each key between two logs that plays a slot has passed on the list of the slot. -/
def Answered (cfg : DynamicMacroConfig) (before after : List MacroEntry) : Prop :=
  ∀ pre keycode record valid slot post, after = pre ++ .key keycode record valid :: post → before <+: pre →
    (macroSpec cfg pre).recording = none → record.event.pressed = false → playSlot keycode = some slot →
    .played slot (pre.length + 1) ((macroSpec cfg pre).content slot) ∈ post

theorem Answered.refl (log : List MacroEntry) : Answered cfg log log := by
  intro pre keycode record valid slot post hlog hpre _ _ _
  have hlen := hpre.length_le
  rw [hlog, List.length_append, List.length_cons] at hlen
  omega

theorem Answered.trans {log₁ log₂ log₃ : List MacroEntry} (h : Answered cfg log₁ log₂) (h' : Answered cfg log₂ log₃)
    (hpre : log₂ <+: log₃) : Answered cfg log₁ log₃ := by
  intro pre keycode record valid slot post hlog hbefore hrec hpressed hslot
  rcases List.prefix_or_prefix_of_prefix hpre (hlog ▸ List.prefix_append _ _) with hlater | hearlier
  · exact h' pre keycode record valid slot post hlog hlater hrec hpressed hslot
  · -- the key is the first entry behind `pre` in the middle log too
    obtain ⟨rest, rfl⟩ := hearlier
    cases rest with
    | nil => exact h' pre keycode record valid slot post hlog (by simp) hrec hpressed hslot
    | cons e rest =>
      obtain ⟨tail, rfl⟩ := hpre
      rw [List.append_assoc, List.append_cancel_left_eq, List.cons_append, List.cons.injEq] at hlog
      obtain ⟨rfl, rfl⟩ := hlog
      exact List.mem_append_left _ (h pre keycode record valid slot rest rfl hbefore hrec hpressed hslot)

theorem Answered.of_entry {before rest : List MacroEntry} (h : Answered cfg (before ++ [e]) (before ++ e :: rest))
    (hkey : ∀ keycode record valid slot, e = .key keycode record valid → (macroSpec cfg before).recording = none →
      record.event.pressed = false → playSlot keycode = some slot →
      .played slot (before.length + 1) ((macroSpec cfg before).content slot) ∈ rest) :
    Answered cfg before (before ++ e :: rest) := by
  intro pre keycode record valid slot post hlog hbefore hrec hpressed hslot
  obtain ⟨mid, rfl⟩ := hbefore
  rw [List.append_assoc, List.append_cancel_left_eq] at hlog
  cases mid with
  | nil =>
    rw [List.nil_append, List.cons.injEq] at hlog
    obtain ⟨rfl, rfl⟩ := hlog
    rw [List.append_nil] at hrec ⊢
    exact hkey keycode record valid slot rfl hrec hpressed hslot
  | cons e' mid =>
    rw [List.cons_append, List.cons.injEq] at hlog
    obtain ⟨rfl, rfl⟩ := hlog
    exact h _ keycode record valid slot post (by simp) (by simp) hrec hpressed hslot

theorem Answered.snoc (log : List MacroEntry) (he : ∀ keycode record valid, e ≠ .key keycode record valid) :
    Answered cfg log (log ++ [e]) :=
  .of_entry (.refl _) fun keycode record valid _ heq => absurd heq (he keycode record valid)

/-- From one state to a later one the log goes on, and without an accident the later state follows its keys
and those that came meanwhile are answered. -/
def Progress (cfg : DynamicMacroConfig) (s s' : MacroState σ) : Prop :=
  s.log <+: s'.log ∧ (NoAccident s'.log → KeepsUp cfg s → KeepsUp cfg s' ∧ Answered cfg s.log s'.log)

theorem Progress.refl (s : MacroState σ) : Progress cfg s s :=
  ⟨List.prefix_rfl, fun _ hfol => ⟨hfol, .refl _⟩⟩

theorem Progress.environment (s : MacroState σ) (env : σ) : Progress cfg s { s with env := env } :=
  ⟨List.prefix_rfl, fun _ hfol => ⟨hfol.environment env, .refl _⟩⟩

theorem Progress.trans {s₁ s₂ s₃ : MacroState σ} (h : Progress cfg s₁ s₂) (h' : Progress cfg s₂ s₃) :
    Progress cfg s₁ s₃ := by
  refine ⟨h.1.trans h'.1, fun hclean hfol => ?_⟩
  obtain ⟨hfol₂, hans₂⟩ := h.2 (hclean.of_prefix h'.1) hfol
  obtain ⟨hfol₃, hans₃⟩ := h'.2 hclean hfol₂
  exact ⟨hfol₃, hans₂.trans hans₃ h'.1⟩

theorem Progress.of_accident {s : MacroState σ} (hlog : s'.log = s.log ++ [e]) (he : e.isAccident = true) :
    Progress cfg s s' := by
  refine ⟨hlog ▸ List.prefix_append _ _, fun hclean => ?_⟩
  have hfalse := hclean e (by rw [hlog]; simp)
  rw [he] at hfalse
  cases hfalse

def NestedSpec (cfg : DynamicMacroConfig) (nested : NestedMacro σ) : Prop :=
  ∀ keycode record s answer s', nested keycode record s = some (answer, s') → Progress cfg s s'

theorem runMacroProc_progress (hnested : NestedSpec cfg nested) (proc : MacroProc σ) :
    ∀ {s s' : MacroState σ} {change : Record → Record}, runMacroProc nested proc s = some (change, s') →
      Progress cfg s s' := by
  induction proc with
  | done _ env =>
    intro s s' change h
    cases h
    exact .environment s env
  | call keycode record env next ih =>
    intro s s' change h
    obtain ⟨⟨answer, s₁⟩, hcall, hrest⟩ := Option.bind_eq_some_iff.mp h
    exact ((Progress.environment s env).trans (hnested _ _ _ _ _ hcall)).trans (ih answer s₁.env hrest)

theorem changeCell_progress (slot : MacroSlot) (p : Int) (change : Record → Record) (s : MacroState σ) :
    Progress cfg s (changeCell slot p change s) := by
  rw [changeCell]
  split
  · exact .refl s
  · exact .of_accident rfl rfl

theorem checkPending_progress (slot : MacroSlot) (p macroEnd : Int) (before : Int → Record) (s : MacroState σ) :
    Progress cfg s (checkPending slot p macroEnd before s) := by
  rw [checkPending]
  split
  · exact .refl s
  · exact .of_accident rfl rfl

theorem playRound_progress (hnested : NestedSpec cfg nested) {proc : MacroProc σ} {s s₁ : MacroState σ}
    {change : Record → Record} (h : runMacroProc nested proc s = some (change, s₁)) (slot : MacroSlot)
    (p macroEnd : Int) :
    Progress cfg s (checkPending slot (p + slot.direction) macroEnd s.macroBuffer (changeCell slot p change s₁)) :=
  ((runMacroProc_progress hnested proc h).trans (changeCell_progress _ _ _ _)).trans
    (checkPending_progress _ _ _ _ _)

theorem playLoop_progress (hnested : NestedSpec cfg nested) {slot : MacroSlot} {macroEnd : Int} {n : Nat} :
    ∀ {p : Int} {s s' : MacroState σ} {records : List Record},
      playLoop E nested slot macroEnd n p s = some (records, s') → Progress cfg s s' := by
  induction n with
  | zero =>
    intro p s s' records h
    rw [playLoop] at h
    split at h <;> cases h
    exact .refl s
  | succ n ih =>
    intro p s s' records h
    rw [playLoop] at h
    split at h
    · cases h
      exact .refl s
    · obtain ⟨⟨change, s₁⟩, hproc, hrest⟩ := Option.bind_eq_some_iff.mp h
      obtain ⟨⟨rest, s₂⟩, hloop, heq⟩ := Option.map_eq_some_iff.mp hrest
      cases heq
      exact (playRound_progress hnested hproc _ _ _).trans (ih hloop)

theorem holds_iff_cellsFrom {buffer : Int → Record} {d p : Int} {rs : List Record} :
    Holds buffer d p rs ↔ cellsFrom buffer d p rs.length = rs := by
  induction rs generalizing p with
  | nil => simp [Holds, cellsFrom]
  | cons r rs ih =>
    have hcells : cellsFrom buffer d p (rs.length + 1) = buffer p :: cellsFrom buffer d (p + d) rs.length := by
      rw [cellsFrom, cellsFrom, List.range_succ_eq_map, List.map_cons, List.map_map]
      simp only [Nat.cast_zero, mul_zero, add_zero, List.cons.injEq, true_and]
      refine List.map_congr_left fun k _ => ?_
      rw [Function.comp_apply]
      congr 1
      push_cast
      ring
    rw [List.length_cons, hcells, Holds, ih, List.cons.injEq]

theorem natAbs_rest (slot : MacroSlot) (p : Int) (n : Nat) :
    (p + slot.direction * n - p).natAbs = n := by
  cases slot <;> simp [MacroSlot.direction]

theorem checkPending_holds {slot : MacroSlot} {p : Int} {before : Int → Record} {s : MacroState σ}
    {rs : List Record} (h : Holds before slot.direction p rs)
    (hclean : NoAccident (checkPending slot p (p + slot.direction * rs.length) before s).log) :
    Holds (checkPending slot p (p + slot.direction * rs.length) before s).macroBuffer slot.direction p rs := by
  rw [holds_iff_cellsFrom] at h ⊢
  rw [checkPending, natAbs_rest] at hclean ⊢
  split
  · rename_i hsame
    rw [hsame, h]
  · rename_i hdiffer
    rw [if_neg hdiffer] at hclean
    have hfalse := hclean (.overtaken slot) (by simp [MacroState.write])
    cases hfalse

theorem playLoop_records (hnested : NestedSpec cfg nested) {slot : MacroSlot} {n : Nat} :
    ∀ {p : Int} {s s' : MacroState σ} {records rs : List Record},
      playLoop E nested slot (p + slot.direction * rs.length) n p s = some (records, s') →
      NoAccident s'.log → Holds s.macroBuffer slot.direction p rs → records = rs := by
  induction n with
  | zero =>
    intro p s s' records rs h _ _
    rw [playLoop] at h
    split at h
    · rename_i hp
      cases h
      have hzero : slot.direction * (rs.length : Int) = 0 := by omega
      have hlen := (mul_eq_zero.mp hzero).resolve_left slot.direction_ne_zero
      exact (List.length_eq_zero_iff.mp (by omega)).symm
    · cases h
  | succ n ih =>
    intro p s s' records rs h hclean hcells
    rw [playLoop] at h
    cases rs with
    | nil =>
      rw [if_pos (by simp)] at h
      cases h
      rfl
    | cons r rs =>
      have hnext : p + slot.direction * ((r :: rs).length : Int) =
          p + slot.direction + slot.direction * (rs.length : Int) := by
        push_cast [List.length_cons]
        ring
      have hne : p ≠ p + slot.direction * ((r :: rs).length : Int) := by
        intro heq
        have hzero : slot.direction * ((r :: rs).length : Int) = 0 := by omega
        have hlen := (mul_eq_zero.mp hzero).resolve_left slot.direction_ne_zero
        simp at hlen
        omega
      rw [if_neg hne, hnext] at h
      obtain ⟨⟨change, s₁⟩, hproc, hrest⟩ := Option.bind_eq_some_iff.mp h
      obtain ⟨⟨rest, s₂⟩, hloop, heq⟩ := Option.map_eq_some_iff.mp hrest
      cases heq
      have hlater : Progress cfg _ s' := playLoop_progress hnested hloop
      rw [ih hloop hclean (checkPending_holds hcells.2 (hclean.of_prefix hlater.1)), hcells.1]

theorem dynamicMacroPlay_grows (hnested : NestedSpec cfg nested) {rounds : Nat} {slot : MacroSlot} {s : MacroState σ}
    (h : dynamicMacroPlay E cfg nested rounds slot s = some s') : s.log <+: s'.log := by
  obtain ⟨⟨records, s₁⟩, hloop, heq⟩ := Option.map_eq_some_iff.mp h
  cases heq
  have hplayed : Progress cfg s s₁ :=
    (Progress.environment s (E.playStart slot s.env)).trans (playLoop_progress hnested hloop)
  exact hplayed.1.trans (List.prefix_append _ _)

theorem dynamicMacroPlay_follows (hnested : NestedSpec cfg nested) {rounds : Nat} {slot : MacroSlot}
    {s : MacroState σ} (hid : s.macroId = none) (h : dynamicMacroPlay E cfg nested rounds slot s = some s')
    (hclean : NoAccident s'.log) (hfol : KeepsUp cfg s) : KeepsUp cfg s' ∧ Answered cfg s.log s'.log ∧
      ∃ mid, s'.log = s.log ++ mid ++ [.played slot s.log.length ((macroSpec cfg s.log).content slot)] := by
  obtain ⟨⟨records, s₁⟩, hloop, heq⟩ := Option.map_eq_some_iff.mp h
  cases heq
  have hplayed : Progress cfg s s₁ :=
    (Progress.environment s (E.playStart slot s.env)).trans (playLoop_progress hnested hloop)
  have hclean₁ : NoAccident s₁.log := hclean.of_prefix (List.prefix_append _ _)
  obtain ⟨hfol₁, hans⟩ := hplayed.2 hclean₁ hfol
  have hrecords : records = (macroSpec cfg s.log).content slot := by
    rw [hfol.refines.ends, DynamicMacroConfig.cell] at hloop
    exact playLoop_records hnested hloop hclean₁ (hfol.refines.kept slot (by simp [hid]))
  refine ⟨(hfol₁.environment (E.playEnd slot s.env s₁.env)).logged (e := .played slot s.log.length records) rfl
    (hfol₁.log.snoc (by simp) ?_), hans.trans (.snoc _ (by simp)) (List.prefix_append _ _), ?_⟩
  · intro slot' start records' heq
    obtain ⟨rfl, rfl, rfl⟩ := (MacroEntry.played.injEq ..).mp heq
    rw [hrecords, ← List.prefix_iff_eq_take.mp hplayed.1]
  · obtain ⟨mid, hmid⟩ := hplayed.1
    refine ⟨mid, ?_⟩
    rw [hmid, hrecords]

/-! ## The keys of a run -/

theorem recordStartSlot_of_playSlot {keycode : Nat} {slot : MacroSlot} (h : playSlot keycode = some slot) :
    recordStartSlot keycode = none := by
  rw [playSlot] at h
  split at h
  · rename_i hkey
    rw [hkey]
    decide
  · split at h
    · rename_i hkey
      rw [hkey]
      decide
    · cases h

theorem MacroSpec.key_idle {spec : MacroSpec} (hrec : spec.recording = none) {keycode : Nat} (valid : Bool)
    (hstart : record.event.pressed = true ∨ recordStartSlot keycode = none) :
    spec.key cfg keycode record valid = spec := by
  simp only [MacroSpec.key, hrec]
  cases hkey : recordStartSlot keycode with
  | none => rfl
  | some slot => exact if_pos (hstart.resolve_right (by rw [hkey]; simp))

theorem Refines.processRecording (h : Refines cfg spec s) {slot : MacroSlot} (hid : s.macroId = some slot)
    (keycode : Nat) (record : Record) :
    Refines cfg (spec.key cfg keycode record (E.validKey s.env keycode record))
        (processRecording E cfg slot keycode record s).2 ∧
      StoredInside cfg s.log (processRecording E cfg slot keycode record s).2.log := by
  obtain ⟨keys, hrec⟩ := h.recording hid
  simp only [MacroSpec.key, hrec]
  rw [Keys.processRecording]
  by_cases hcontrol : (recordStartSlot keycode).isSome ∨ keycode = qkDynamicMacroRecordStop
  · have hbelongs : ¬ BelongsToMacro cfg.noNesting keycode (E.validKey s.env keycode record) := by
      rintro ⟨hstop, hstart, -, -⟩
      rcases hcontrol with hsome | hkey
      · rw [hstart] at hsome
        cases hsome
      · exact hstop hkey
    have hstops : StopsMacro keycode record ↔
        record.event.pressed = decide (keycode = qkDynamicMacroRecordStop) := by
      by_cases hkey : keycode = qkDynamicMacroRecordStop
      · simp [StopsMacro, hkey, recordStartSlot, qkDynamicMacroRecordStop, qkDynamicMacroRecordStart1,
          qkDynamicMacroRecordStart2]
      · simp [StopsMacro, hkey, hcontrol.resolve_right hkey]
    rw [if_pos hcontrol, if_neg hbelongs]
    by_cases hstop : record.event.pressed = decide (keycode = qkDynamicMacroRecordStop)
    · rw [if_pos hstop, if_pos (hstops.mpr hstop)]
      exact ⟨h.stopRecording, .inl (dynamicMacroStopRecording_log s)⟩
    · rw [if_neg hstop, if_neg (mt hstops.mp hstop)]
      exact ⟨h, .inl rfl⟩
  · obtain ⟨hstart, hkey⟩ := not_or.mp hcontrol
    rw [Option.not_isSome_iff_eq_none] at hstart
    have hstops : ¬ StopsMacro keycode record := by simp [StopsMacro, hstart, hkey]
    rw [if_neg hcontrol, if_neg hstops]
    by_cases hnesting : cfg.noNesting = true ∧ (playSlot keycode).isSome
    · have hbelongs : ¬ BelongsToMacro cfg.noNesting keycode (E.validKey s.env keycode record) := by
        rintro ⟨-, -, hplay, -⟩
        rw [hplay hnesting.1] at hnesting
        cases hnesting.2
      rw [if_pos hnesting, if_neg hbelongs]
      exact ⟨h, .inl rfl⟩
    · rw [if_neg hnesting]
      have hplay : cfg.noNesting = true → playSlot keycode = none := by
        intro hno
        rw [← Option.not_isSome_iff_eq_none]
        exact fun hsome => hnesting ⟨hno, hsome⟩
      by_cases hvalid : E.validKey s.env keycode record = true
      · rw [if_pos hvalid, if_pos ⟨hkey, hstart, hplay, hvalid⟩]
        exact h.recordKey hrec record
      · rw [if_neg hvalid, if_neg fun hbelongs => hvalid hbelongs.2.2.2]
        exact ⟨h, .inl rfl⟩

/-- A step after which the state does what the specification says of the entry it began with. -/
theorem Progress.of_entry {s : MacroState σ} (hpre : s.log <+: s'.log) (hstep : KeepsUp cfg s →
      Refines cfg ((macroSpec cfg s.log).step cfg e) s' ∧ StoredInside cfg (s.log ++ [e]) s'.log)
    (hstored : ∀ cell : Int, e ≠ .stored cell) (hplayed : ∀ slot start records, e ≠ .played slot start records)
    (hkey : ∀ keycode record valid slot, e = .key keycode record valid → KeepsUp cfg s →
      (macroSpec cfg s.log).recording = none → record.event.pressed = false → playSlot keycode ≠ some slot) :
    Progress cfg s s' := by
  refine ⟨hpre, fun _ hfol => ?_⟩
  obtain ⟨hrefines, hlog⟩ := hstep hfol
  have hfaithful : FaithfulLog cfg (s.log ++ [e]) := hfol.log.snoc
    (fun cell heq => absurd heq (hstored cell)) fun slot start records heq => absurd heq (hplayed slot start records)
  have hasks : ∀ rest, Answered cfg (s.log ++ [e]) (s.log ++ e :: rest) → Answered cfg s.log (s.log ++ e :: rest) :=
    fun rest hans => hans.of_entry fun keycode record valid slot heq hrec hpressed hslot =>
      absurd hslot (hkey keycode record valid slot heq hfol hrec hpressed)
  rcases hlog with hlog | ⟨cell, hlog, hcell⟩
  · refine ⟨⟨?_, hlog ▸ hfaithful⟩, hlog ▸ hasks [] (.refl _)⟩
    rw [hlog, macroSpec_snoc]
    exact hrefines
  · refine ⟨⟨?_, hlog ▸ hfaithful.snoc ?_ (by simp)⟩, ?_⟩
    · rw [hlog, macroSpec_snoc, macroSpec_snoc]
      exact hrefines
    · rintro cell' heq
      cases heq
      exact hcell
    · have hsnoc : Answered cfg (s.log ++ [e]) (s.log ++ [e] ++ [.stored cell]) := .snoc _ (by simp)
      rw [List.append_assoc] at hlog hsnoc
      rw [hlog]
      exact hasks _ hsnoc

theorem processIdle_progress (hnested : NestedSpec cfg nested) {rounds keycode : Nat} {s : MacroState σ}
    {answer : Bool} (hid : s.macroId = none) (h : processIdle E cfg nested rounds keycode record
      (s.write (.key keycode record (E.validKey s.env keycode record))) = some (answer, s')) :
    Progress cfg s s' := by
  generalize he : MacroEntry.key keycode record (E.validKey s.env keycode record) = e at h
  have hidle : record.event.pressed = true ∨ recordStartSlot keycode = none → KeepsUp cfg s →
      Refines cfg ((macroSpec cfg s.log).step cfg e) (s.write e) ∧
        StoredInside cfg (s.log ++ [e]) (s.write e).log := by
    intro hstart hfol
    have hspec : (macroSpec cfg s.log).step cfg e = macroSpec cfg s.log := by
      rw [← he]
      exact MacroSpec.key_idle (hfol.refines.idle hid) _ hstart
    rw [hspec]
    exact ⟨hfol.refines.write e, .inl rfl⟩
  rw [processIdle] at h
  split at h
  · rename_i hpressed
    cases h
    refine .of_entry (List.prefix_append _ _) (hidle (.inl hpressed)) (by simp [← he]) (by simp [← he]) ?_
    rintro _ _ _ _ heq _ _ hreleased _
    cases he.trans heq
    rw [hpressed] at hreleased
    cases hreleased
  · rename_i hpressed
    cases hstart : recordStartSlot keycode with
    | some slot =>
      simp only [hstart] at h
      cases h
      refine .of_entry (List.prefix_append _ _) (fun hfol => ⟨?_, .inl rfl⟩) (by simp [← he]) (by simp [← he]) ?_
      · have hspec : (macroSpec cfg s.log).step cfg e =
            { macroSpec cfg s.log with recording := some (slot, []) } := by
          simp only [← he, MacroSpec.step, MacroSpec.key, hfol.refines.idle hid, hstart]
          exact if_neg hpressed
        rw [hspec]
        exact (hfol.refines.write e).recordStart hid slot
      · rintro _ _ _ _ heq _ _ _ hslot
        cases he.trans heq
        rw [recordStartSlot_of_playSlot hslot] at hstart
        cases hstart
    | none =>
      cases hslot : playSlot keycode with
      | some slot =>
        simp only [hstart, hslot] at h
        obtain ⟨s₁, hplay, heq⟩ := Option.map_eq_some_iff.mp h
        cases heq
        refine ⟨(List.prefix_append _ _).trans (dynamicMacroPlay_grows hnested hplay), fun hclean hfol => ?_⟩
        have hspec : (macroSpec cfg s.log).step cfg e = macroSpec cfg s.log := by
          rw [← he]
          exact MacroSpec.key_idle (hfol.refines.idle hid) _ (.inr hstart)
        have hcome : KeepsUp cfg (s.write e) := hfol.logged hspec (hfol.log.snoc (by simp [← he]) (by simp [← he]))
        have hid' : (s.write e).macroId = none := hid
        obtain ⟨hfol', hans, mid, hlog⟩ := dynamicMacroPlay_follows hnested hid' hplay hclean hcome
        refine ⟨hfol', ?_⟩
        have hwhole : s'.log = s.log ++ e :: (mid ++
            [.played slot (s.log.length + 1) ((macroSpec cfg s.log).content slot)]) := by
          rw [hlog]
          simp [MacroState.write, hspec]
        rw [hwhole] at hans ⊢
        refine .of_entry hans ?_
        rintro _ _ _ slot' heq _ _ hslot'
        cases he.trans heq
        rw [hslot] at hslot'
        cases hslot'
        simp
      | none =>
        simp only [hstart, hslot] at h
        cases h
        refine .of_entry (List.prefix_append _ _) (hidle (.inr hstart)) (by simp [← he]) (by simp [← he]) ?_
        rintro _ _ _ _ heq _ _ _ hslot'
        cases he.trans heq
        rw [hslot] at hslot'
        cases hslot'

theorem processRecording_grows (slot : MacroSlot) (keycode : Nat) (record : Record) (s : MacroState σ) :
    s.log <+: (processRecording E cfg slot keycode record s).2.log := by
  rw [processRecording]
  split
  · split
    · simp
    · exact List.prefix_rfl
  · split
    · exact List.prefix_rfl
    · split
      · rw [dynamicMacroRecordKey]
        split
        · exact List.prefix_rfl
        · split
          · exact List.prefix_append _ _
          · exact List.prefix_rfl
      · exact List.prefix_rfl

theorem processRecording_progress {s : MacroState σ} {slot : MacroSlot} (hid : s.macroId = some slot)
    (keycode : Nat) (record : Record) :
    Progress cfg s (processRecording E cfg slot keycode record
      (s.write (.key keycode record (E.validKey s.env keycode record)))).2 := by
  set e : MacroEntry := .key keycode record (E.validKey s.env keycode record) with he
  have hpre : s.log <+: (processRecording E cfg slot keycode record (s.write e)).2.log :=
    (List.prefix_append _ _).trans (processRecording_grows slot keycode record (s.write e))
  refine .of_entry (e := e) hpre (fun hfol => (hfol.refines.write e).processRecording hid keycode record)
    (by simp [he]) (by simp [he]) fun _ _ _ _ _ hfol hrec _ _ => ?_
  obtain ⟨keys, hkeys⟩ := hfol.refines.recording hid
  rw [hkeys] at hrec
  cases hrec

theorem processDynamicMacro_progress (fuel : Nat) : NestedSpec cfg (processDynamicMacro E cfg fuel) := by
  induction fuel with
  | zero =>
    intro keycode record s answer s' h
    cases h
  | succ fuel ih =>
    intro keycode record s answer s' h
    simp only [processDynamicMacro] at h
    split at h
    · rename_i hid
      exact processIdle_progress ih hid h
    · rename_i slot hid
      have hprogress : Progress cfg s _ := processRecording_progress (E := E) (s := s) hid keycode record
      rw [Option.some.inj h] at hprogress
      exact hprogress

theorem DynamicMacroStep.exec_progress {fuel : Nat} {step : DynamicMacroStep σ} {s : MacroState σ}
    (h : step.exec E cfg fuel s = some s') : Progress cfg s s' := by
  cases step with
  | key keycode record =>
    obtain ⟨⟨answer, s₁⟩, hproc, rfl⟩ := Option.map_eq_some_iff.mp h
    exact processDynamicMacro_progress fuel _ _ _ _ _ hproc
  | stop =>
    cases h
    refine .of_entry (e := .stop) ?_ (fun hfol => ⟨(hfol.refines.write .stop).stopRecording, ?_⟩) (by simp)
      (by simp) (by simp)
    · rw [dynamicMacroStopRecording_log]
      exact List.prefix_append _ _
    · exact .inl (dynamicMacroStopRecording_log _)
  | environment change =>
    cases h
    exact .environment s _

theorem runDynamicMacros_progress {fuel : Nat} {steps : List (DynamicMacroStep σ)} : ∀ {s s' : MacroState σ},
    runDynamicMacros E cfg fuel s steps = some s' → Progress cfg s s' := by
  induction steps with
  | nil =>
    intro s s' h
    cases h
    exact .refl s
  | cons step steps ih =>
    intro s s' h
    obtain ⟨s₁, hstep, hrest⟩ := Option.bind_eq_some_iff.mp h
    exact (DynamicMacroStep.exec_progress hstep).trans (ih hrest)

/-- Every key that a run stores is inside the buffer, the macro of a slot that is not being recorded is in
its cells, a playback passes on the macro of its slot, and each key that plays a slot is followed by its
playback, as long as playing a record does not change it and stores no key in a cell that is still to be
played. The macros are those of the keys that came to `process_dynamic_macro`. -/
theorem dynamic_macros {fuel : Nat} {buffer : Int → Record} {env : σ} {steps : List (DynamicMacroStep σ)}
    {s : MacroState σ} (h : runDynamicMacros E cfg fuel (.initial cfg buffer env) steps = some s)
    (hclean : NoAccident s.log) :
    (∀ cell : Int, .stored cell ∈ s.log → 0 ≤ cell ∧ cell < cfg.size) ∧
    (∀ slot, s.macroId ≠ some slot →
      s.slotEnd slot = cfg.cell slot ((macroSpec cfg s.log).content slot).length ∧
      Holds s.macroBuffer slot.direction (cfg.slotBuffer slot) ((macroSpec cfg s.log).content slot)) ∧
    (∀ pre slot start records post, s.log = pre ++ .played slot start records :: post →
      records = (macroSpec cfg (pre.take start)).content slot) ∧
    (∀ pre keycode record valid slot post, s.log = pre ++ .key keycode record valid :: post →
      (macroSpec cfg pre).recording = none → record.event.pressed = false → playSlot keycode = some slot →
      .played slot (pre.length + 1) ((macroSpec cfg pre).content slot) ∈ post) := by
  obtain ⟨hfol, hans⟩ := (runDynamicMacros_progress h).2 hclean (initial_follows buffer env)
  refine ⟨hfol.log.inside, fun slot hid => ⟨hfol.refines.ends slot, hfol.refines.kept slot hid⟩, hfol.log.played, ?_⟩
  intro pre keycode record valid slot post hlog
  exact hans pre keycode record valid slot post hlog (List.nil_prefix)

end Machine

/-! ## Two recordings -/

section Examples

def macroKey (col : Nat) (pressed : Bool) (keycode : Nat) : Record := .raw ⟨⟨0, col⟩, 0, .key, pressed⟩ keycode

def macroEvent {σ : Type} (col : Nat) (pressed : Bool) (keycode : Nat) : DynamicMacroStep σ :=
  .key keycode (macroKey col pressed keycode)

/-- Ordinary keys: `process_record` asks `process_dynamic_macro` and does not touch the record. -/
def ordinaryKeys : MacroEnv Unit where
  processRecord record _ := .call record.keycode record () fun _ _ => .done id ()
  validKey _ _ _ := true
  recordStart _ _ := ()
  recordKey _ _ _ := ()
  recordEnd _ _ := ()
  playStart _ _ := ()
  playEnd _ _ _ := ()

/-- Each slot recorded: a release in front, a tap, and the press of the key on the way to the stop key. Then
the first slot is recorded again with one tap, and both are played. -/
def bothRecorded : Option (MacroState Unit) :=
  runDynamicMacros ordinaryKeys ⟨128, false⟩ 2 (.initial ⟨128, false⟩ (fun _ => .zero) ())
    [macroEvent 2 false qkDynamicMacroRecordStart1, macroEvent 1 false 5, macroEvent 0 true 4,
      macroEvent 0 false 4, macroEvent 1 true 5, macroEvent 2 true qkDynamicMacroRecordStop,
      macroEvent 2 false qkDynamicMacroRecordStart2, macroEvent 1 false 5, macroEvent 3 true 6,
      macroEvent 3 false 6, macroEvent 1 true 5, macroEvent 2 true qkDynamicMacroRecordStop,
      macroEvent 2 false qkDynamicMacroRecordStart1, macroEvent 4 true 7, macroEvent 4 false 7,
      macroEvent 2 true qkDynamicMacroRecordStop,
      macroEvent 2 false qkDynamicMacroPlay1, macroEvent 2 false qkDynamicMacroPlay2]

theorem bothRecorded_isSome : bothRecorded.isSome = true := by decide +kernel

theorem bothRecorded_clean : NoAccident (bothRecorded.get bothRecorded_isSome).log := by decide +kernel

theorem log_split {log : List MacroEntry} {n : Nat} {e : MacroEntry} (h : log[n]? = some e) :
    log = log.take n ++ e :: log.drop (n + 1) := by
  obtain ⟨hn, rfl⟩ := List.getElem?_eq_some_iff.mp h
  rw [← List.drop_eq_getElem_cons hn, List.take_append_drop]

theorem bothRecorded_plays :
    (bothRecorded.get bothRecorded_isSome).log[24]? =
        some (.key qkDynamicMacroPlay1 (macroKey 2 false qkDynamicMacroPlay1) true) ∧
      (bothRecorded.get bothRecorded_isSome).log[28]? =
        some (.key qkDynamicMacroPlay2 (macroKey 2 false qkDynamicMacroPlay2) true) ∧
      ∀ n ∈ [24, 28], ((bothRecorded.get bothRecorded_isSome).log.take n).length = n ∧
        (macroSpec ⟨128, false⟩ ((bothRecorded.get bothRecorded_isSome).log.take n)).recording = none ∧
        (macroSpec ⟨128, false⟩ ((bothRecorded.get bothRecorded_isSome).log.take n)).content .one =
          [macroKey 4 true 7, macroKey 4 false 7] ∧
        (macroSpec ⟨128, false⟩ ((bothRecorded.get bothRecorded_isSome).log.take n)).content .two =
          [macroKey 3 true 6, macroKey 3 false 6] := by
  decide +kernel

/-- Each slot plays its tap. -/
theorem dynamic_macros_bothRecorded :
    ∃ s, bothRecorded = some s ∧
      .played .one 25 [macroKey 4 true 7, macroKey 4 false 7] ∈ s.log.drop 25 ∧
      .played .two 29 [macroKey 3 true 6, macroKey 3 false 6] ∈ s.log.drop 29 := by
  obtain ⟨hone, htwo, hspec⟩ := bothRecorded_plays
  obtain ⟨hlen₁, hrec₁, hcontent₁, -⟩ := hspec 24 (by decide)
  obtain ⟨hlen₂, hrec₂, -, hcontent₂⟩ := hspec 28 (by decide)
  have hrun := (Option.some_get bothRecorded_isSome).symm
  obtain ⟨-, -, -, hplays⟩ := @dynamic_macros Unit ordinaryKeys ⟨128, false⟩ 2 _ _ _ _ hrun bothRecorded_clean
  have hplayed₁ := hplays _ _ _ _ .one _ (log_split hone) hrec₁ rfl (by decide)
  have hplayed₂ := hplays _ _ _ _ .two _ (log_split htwo) hrec₂ rfl (by decide)
  rw [hlen₁, hcontent₁] at hplayed₁
  rw [hlen₂, hcontent₂] at hplayed₂
  exact ⟨_, hrun, hplayed₁, hplayed₂⟩

/-- A keyboard with a one-shot layer key in column 0; the state says whether the layer waits for its key.
That key's press makes `process_action` release it before it leaves the layer: it clears `pressed` in the
record it was given and processes it again. -/
def oneShotKeys : MacroEnv Bool where
  processRecord record pending :=
    .call record.keycode record pending fun answer pending =>
      if answer = false then .done id pending
      else if record.event.key.col = 0 then .done id true
      else if pending = true ∧ record.event.pressed = true then
        .call record.keycode { record with event := { record.event with pressed := false } } false
          fun _ pending => .done (fun r => { r with event := { r.event with pressed := false } }) pending
      else .done id pending
  validKey _ _ _ := true
  recordStart _ _ := false
  recordKey _ _ pending := pending
  recordEnd _ pending := pending
  playStart _ _ := false
  playEnd _ _ pending := pending

/-- `OSL(1)` and `A` tapped, with the release of `A` that is made up when the layer is left. -/
def oneShotMacro : List Record :=
  [{ macroKey 0 true 0x5281 with tap := ⟨false, 1⟩ }, { macroKey 0 false 0x5281 with tap := ⟨false, 1⟩ },
    macroKey 1 true 4, macroKey 1 false 4, macroKey 1 false 4]

def playedTwice : Option (MacroState Bool) :=
  runDynamicMacros oneShotKeys ⟨128, false⟩ 2 (.initial ⟨128, false⟩ (fun _ => .zero) false)
    ([macroEvent 2 false qkDynamicMacroRecordStart1] ++ oneShotMacro.map (fun r => .key r.keycode r) ++
      [macroEvent 2 true qkDynamicMacroRecordStop, macroEvent 2 false qkDynamicMacroPlay1,
        macroEvent 2 false qkDynamicMacroPlay1])

theorem playedTwice_log :
    playedTwice.map (fun s => (s.log[20]?, s.log[27]?,
        (macroSpec ⟨128, false⟩ ((s.log.take 27).take 22)).content .one)) =
      some (some (.played .one 13 oneShotMacro),
        some (.played .one 22 (oneShotMacro.set 2 (macroKey 1 false 4))), oneShotMacro) := by
  decide +kernel

/-- The second playback passes on a release of `A` where its press was recorded. -/
theorem second_playback_differs :
    ¬ ∀ s, playedTwice = some s → ∀ pre slot start records post,
      s.log = pre ++ .played slot start records :: post →
      records = (macroSpec ⟨128, false⟩ (pre.take start)).content slot := by
  intro h
  obtain ⟨s, hrun, hlog⟩ := Option.map_eq_some_iff.mp playedTwice_log
  obtain ⟨-, hsecond, hcontent⟩ := Prod.mk.injEq .. ▸ Prod.mk.injEq .. ▸ hlog
  have hplayed := h s hrun _ _ _ _ _ (log_split hsecond)
  rw [hcontent] at hplayed
  revert hplayed
  decide

end Examples

end Keys
end VialQmk
