import VialQmk.Keys.MacroSend
import VialQmk.Lib.CallGraph
import Mathlib.Data.Set.Finite.Lattice
import Mathlib.Data.Set.Finite.Range

/-!
# Keys.MacroNesting

Macros that play macros. A macro can press any keycode, `QK_MACRO` too: `vial_keycode_down` calls `action_exec`, and
`process_record_via` sends that macro before the first one goes on.

* `Pipeline`: what the rest of the firmware does with a record at the magic position. It may start macros as well.
* `pressKeycode`: the press of a macro key, with so many macros nested in one another.
* `Playable`: no macro that is started leads back to itself, and each comes to its end.
-/

namespace VialQmk
namespace Keys
namespace MacroNesting

open Lib Eeprom Hid Relation

def qkModsMax : UInt16 := 0x1FFF

def qkMacro : UInt16 := 0x7700

def qkMacroMax : UInt16 := 0x777F

/-- The macro of a keycode: `keycode - QK_MACRO` as a `uint8_t`. -/
def macroId (keycode : UInt16) : Option UInt8 :=
  if qkMacro ≤ keycode ∧ keycode ≤ qkMacroMax then some (keycode - qkMacro).toUInt8 else none

structure Keyboard (σ : Type) where
  magicKeycodeOverride : UInt16
  rest : σ

abbrev MacroCall (σ : Type) := Call UInt8 (Keyboard σ)

/-- What is called from a macro, with the macros that it starts on its way. -/
structure Pipeline (σ : Type) where
  /-- `action_exec`, for a key event at the magic position. -/
  actionExec : MacroCall σ → Bool → Keyboard σ → Option (Keyboard σ)
  /-- `register_code16` and `unregister_code16`. -/
  registerCode16 : Bool → UInt16 → Keyboard σ → Keyboard σ
  /-- The other actions of a macro: the strings and the delays. -/
  act : MacroAction → Keyboard σ → Keyboard σ
  starts : UInt16 → Bool → Set UInt8
  /-- Apart from the macros it returns. -/
  returns : ∀ (call : MacroCall σ) (pressed : Bool) (b : Keyboard σ),
    (∀ j ∈ starts b.magicKeycodeOverride pressed, ∀ b, (call j b).isSome = true) →
      (actionExec call pressed b).isSome = true

section Model

variable {σ : Type} (env : Pipeline σ) (f : Firmware) (m : EepromMem)

def vialKeycode (call : MacroCall σ) (pressed : Bool) (keycode : UInt16) (b : Keyboard σ) : Option (Keyboard σ) :=
  if keycode ≤ qkModsMax then
    some (env.registerCode16 pressed keycode { b with magicKeycodeOverride := keycode })
  else
    env.actionExec call pressed { b with magicKeycodeOverride := keycode }

def vialKeycodeDown (call : MacroCall σ) : UInt16 → Keyboard σ → Option (Keyboard σ) := vialKeycode env call true

def vialKeycodeUp (call : MacroCall σ) : UInt16 → Keyboard σ → Option (Keyboard σ) := vialKeycode env call false

def vialKeycodeTap (call : MacroCall σ) (keycode : UInt16) (b : Keyboard σ) : Option (Keyboard σ) :=
  (vialKeycodeDown env call keycode b).bind (vialKeycodeUp env call keycode)

def runAction (call : MacroCall σ) (b : Keyboard σ) : MacroAction → Option (Keyboard σ)
  | .vialKeycodeTap keycode => vialKeycodeTap env call keycode b
  | .vialKeycodeDown keycode => vialKeycodeDown env call keycode b
  | .vialKeycodeUp keycode => vialKeycodeUp env call keycode b
  | a => some (env.act a b)

/-- Where the macro starts, if `dynamic_keymap_macro_send` does not return in front of its last loop. -/
def macroStart (id : UInt8) : Option Nat :=
  let start := f.dims.dynamicKeymapMacroEepromAddr
  let size := f.dims.dynamicKeymapMacroEepromSize
  if id ≥ f.macroCount then none
  else if m (start + size - 1) ≠ 0 then none
  else skipMacros m size id.toNat start

/-- The calls that play a macro are the ones that nest; any other returns at once. -/
def sendMacro (call : MacroCall σ) (id : UInt8) (b : Keyboard σ) : Option (Keyboard σ) :=
  if (macroStart f m id).isSome then call id b else some b

/-- `dynamic_keymap_macro_send`, over the macros that are played in it. The number bounds the rounds of its loop. -/
def playMacro (loops : Nat) (call : MacroCall σ) (id : UInt8) (b : Keyboard σ) : Option (Keyboard σ) :=
  let run := dynamicKeymapMacroSend f m id loops
  if run.done then run.actions.foldlM (fun b x => runAction env (sendMacro f m call) b x.action) b else none

/-- The press of a keycode, as far as `process_record_via`: with at most `depth` macros played in one another. -/
def pressKeycode (loops depth : Nat) (keycode : UInt16) (b : Keyboard σ) : Option (Keyboard σ) :=
  match macroId keycode with
  | some id => sendMacro f m (tie (playMacro env f m loops) depth) id b
  | none => some b

section Plain

variable (before after other : UInt16 → Bool → Keyboard σ → Keyboard σ)

/-- `action_exec` where the other features leave the macro keycodes to `process_record_via` and start no macros. What
they do in front of it and behind it is open. -/
def plainActionExec (call : MacroCall σ) (pressed : Bool) (b : Keyboard σ) : Option (Keyboard σ) :=
  match macroId b.magicKeycodeOverride, pressed with
  | some id, true =>
    (call id (before b.magicKeycodeOverride pressed b)).map (after b.magicKeycodeOverride pressed)
  | _, _ => some (other b.magicKeycodeOverride pressed b)

theorem plainActionExec_isSome {call : MacroCall σ} {pressed : Bool} {b : Keyboard σ}
    (h : ∀ id, pressed = true ∧ macroId b.magicKeycodeOverride = some id → ∀ b, (call id b).isSome = true) :
    (plainActionExec before after other call pressed b).isSome = true := by
  unfold plainActionExec
  split
  · rename_i id hid
    rw [Option.isSome_map]
    exact h id ⟨rfl, hid⟩ _
  · rfl

def plainPipeline (registerCode16 : Bool → UInt16 → Keyboard σ → Keyboard σ)
    (act : MacroAction → Keyboard σ → Keyboard σ) : Pipeline σ where
  actionExec := plainActionExec before after other
  registerCode16 := registerCode16
  act := act
  starts keycode pressed := {id | pressed = true ∧ macroId keycode = some id}
  returns _ _ _ h := plainActionExec_isSome before after other h

end Plain

def actionStarts : MacroAction → Set UInt8
  | .vialKeycodeTap keycode => {id | qkModsMax < keycode ∧ (id ∈ env.starts keycode true ∨ id ∈ env.starts keycode false)}
  | .vialKeycodeDown keycode => {id | qkModsMax < keycode ∧ id ∈ env.starts keycode true}
  | .vialKeycodeUp keycode => {id | qkModsMax < keycode ∧ id ∈ env.starts keycode false}
  | _ => ∅

/-- The macro `i` has an action that can start the macro `j`. -/
def Starts (i j : UInt8) : Prop :=
  (macroStart f m j).isSome = true ∧
    ∃ loops, ∃ x ∈ (dynamicKeymapMacroSend f m i loops).actions, j ∈ actionStarts env x.action

def pressedKeycode : MacroAction → Option UInt16
  | .vialKeycodeTap keycode => some keycode
  | .vialKeycodeDown keycode => some keycode
  | _ => none

/-- The macro `i` has an action that presses the keycode of the macro `j`. -/
def Presses (i j : UInt8) : Prop :=
  (macroStart f m j).isSome = true ∧
    ∃ loops, ∃ x ∈ (dynamicKeymapMacroSend f m i loops).actions, (pressedKeycode x.action).bind macroId = some j

def instructionSize (q : Nat) : Nat :=
  if m q ≠ ssQmkPrefix then 1
  else if IsKeyCode (m (q + 1)) then 3
  else if IsExtCode (m (q + 1)) then if m (q + 2) = 0 then 3 else 4
  else if m (q + 1) = ssDelayCode then 4
  else 2

/-- The loop is left here: at a zero byte in the place of an instruction, of its code or of a delay. -/
def EndsAt (q : Nat) : Prop :=
  m q = 0 ∨ m q = ssQmkPrefix ∧ (m (q + 1) = 0 ∨ m (q + 1) = ssDelayCode ∧ (m (q + 2) = 0 ∨ m (q + 3) = 0))

/-- The places where an instruction of the macro from `p` on starts. -/
inductive InstructionAt (p : Nat) : Nat → Prop where
  | first : InstructionAt p p
  | next {q : Nat} : InstructionAt p q → ¬ EndsAt m q → InstructionAt p (q + instructionSize m q)

def ComesToEnd (id : UInt8) : Prop := ∀ p ∈ macroStart f m id, ∃ q, InstructionAt m p q ∧ EndsAt m q

/-- No macro that `id` leads to leads back to itself, and each comes to its end. -/
structure Playable (R : UInt8 → UInt8 → Prop) (id : UInt8) : Prop where
  noCircle : NoCircle R id
  comesToEnd : ∀ j, ReflTransGen R id j → ComesToEnd f m j

end Model

section Loop

variable {f : Firmware} {m : EepromMem} {p q fuel : Nat}

theorem macroStep_stop_iff : (macroStep m q).stop = true ↔ EndsAt m q := by
  have hcodes : ∀ c : UInt8, IsKeyCode c ∨ IsExtCode c → c ≠ 0 ∧ c ≠ ssDelayCode := by
    rintro c ((rfl | rfl | rfl) | (rfl | rfl | rfl)) <;> decide
  have hprefix : ssQmkPrefix ≠ 0 := by decide
  have hdelay : ssDelayCode ≠ 0 := by decide
  simp only [macroStep, EndsAt]
  split_ifs <;> simp_all

theorem macroStep_read_eq (h : ¬ EndsAt m q) : (macroStep m q).read = instructionSize m q := by
  simp only [EndsAt, not_or, not_and] at h
  simp only [macroStep, instructionSize]
  split_ifs <;> simp_all

theorem play_mono {fuel' : Nat} : ∀ {fuel p : Nat}, fuel ≤ fuel' →
    (∀ x ∈ (play m fuel p).actions, x ∈ (play m fuel' p).actions) ∧
      ((play m fuel p).done = true → play m fuel' p = play m fuel p) := by
  induction fuel' with
  | zero =>
    intro fuel p hle
    rw [Nat.le_zero.mp hle]
    exact ⟨fun _ hx => hx, fun _ => rfl⟩
  | succ fuel' ih =>
    intro fuel p hle
    cases fuel with
    | zero => exact ⟨fun _ hx => (List.not_mem_nil hx).elim, fun h => nomatch h⟩
    | succ fuel =>
      obtain ⟨hactions, hdone⟩ := @ih fuel (p + (macroStep m p).read) (by omega)
      refine ⟨fun x hx => ?_, fun h => ?_⟩
      · rw [mem_play_actions] at hx ⊢
        exact hx.imp_right fun ⟨hstop, hx⟩ => ⟨hstop, hactions x hx⟩
      · rw [play, play]
        rw [play] at h
        by_cases hstop : (macroStep m p).stop = true
        · rw [if_pos hstop, if_pos hstop]
        · rw [if_neg hstop] at h
          rw [if_neg hstop, if_neg hstop, hdone h]

theorem play_done_succ : (play m (fuel + 1) p).done = true ↔
    (macroStep m p).stop = true ∨ (macroStep m p).stop = false ∧ (play m fuel (p + (macroStep m p).read)).done = true := by
  rw [play]
  cases (macroStep m p).stop <;> simp

theorem InstructionAt.of_next (hp : ¬ EndsAt m p) (h : InstructionAt m (p + instructionSize m p) q) :
    InstructionAt m p q := by
  induction h with
  | first => exact .next .first hp
  | next _ hq ih => exact .next ih hq

theorem play_done_iff : (∃ fuel, (play m fuel p).done = true) ↔ ∃ q, InstructionAt m p q ∧ EndsAt m q := by
  constructor
  · rintro ⟨fuel, h⟩
    induction fuel generalizing p with
    | zero => cases h
    | succ fuel ih =>
      rcases play_done_succ.mp h with hstop | ⟨hstop, hrest⟩
      · exact ⟨p, .first, macroStep_stop_iff.mp hstop⟩
      · have hp : ¬ EndsAt m p := by
          rw [← macroStep_stop_iff, hstop]
          exact Bool.false_ne_true
        rw [macroStep_read_eq hp] at hrest
        obtain ⟨q, hq, hend⟩ := ih hrest
        exact ⟨q, hq.of_next hp, hend⟩
  · rintro ⟨q, hq, hend⟩
    have hlast : ∃ fuel, (play m fuel q).done = true :=
      ⟨1, play_done_succ.mpr (.inl (macroStep_stop_iff.mpr hend))⟩
    clear hend
    induction hq with
    | first => exact hlast
    | @next q hq hgo ih =>
      obtain ⟨fuel, h⟩ := hlast
      have hstop : (macroStep m q).stop = false := by
        rw [← macroStep_stop_iff, Bool.not_eq_true] at hgo
        exact hgo
      rw [← macroStep_read_eq hgo] at h
      exact ih ⟨fuel + 1, play_done_succ.mpr (.inr ⟨hstop, h⟩)⟩

end Loop

section Send

variable {f : Firmware} {m : EepromMem} {id : UInt8} {loops loops' : Nat}

theorem macroSend_of_start {p : Nat} (h : macroStart f m id = some p) (loops : Nat) :
    (dynamicKeymapMacroSend f m id loops).actions = (play m loops p).actions ∧
      (dynamicKeymapMacroSend f m id loops).done = (play m loops p).done := by
  simp only [macroStart] at h
  by_cases hid : id ≥ f.macroCount
  · rw [if_pos hid] at h
    cases h
  rw [if_neg hid] at h
  by_cases hlast : m (f.dims.dynamicKeymapMacroEepromAddr + f.dims.dynamicKeymapMacroEepromSize - 1) = 0
  · rw [if_neg (not_not.mpr hlast)] at h
    rw [macroSend_eq loops (UInt8.not_le.mp hid) hlast, h]
    exact ⟨rfl, rfl⟩
  · rw [if_pos hlast] at h
    cases h

theorem macroSend_of_none (h : macroStart f m id = none) (loops : Nat) :
    (dynamicKeymapMacroSend f m id loops).actions = [] ∧ (dynamicKeymapMacroSend f m id loops).done = true := by
  simp only [macroStart] at h
  by_cases hid : id ≥ f.macroCount
  · rw [dynamicKeymapMacroSend, if_pos hid]
    exact ⟨rfl, rfl⟩
  rw [if_neg hid] at h
  by_cases hlast : m (f.dims.dynamicKeymapMacroEepromAddr + f.dims.dynamicKeymapMacroEepromSize - 1) = 0
  · rw [if_neg (not_not.mpr hlast)] at h
    rw [macroSend_eq loops (UInt8.not_le.mp hid) hlast, h]
    exact ⟨rfl, rfl⟩
  · rw [dynamicKeymapMacroSend, if_neg hid, if_pos hlast]
    exact ⟨rfl, rfl⟩

theorem macroSend_mono (hle : loops ≤ loops') :
    (∀ x ∈ (dynamicKeymapMacroSend f m id loops).actions, x ∈ (dynamicKeymapMacroSend f m id loops').actions) ∧
      ((dynamicKeymapMacroSend f m id loops).done = true →
        (dynamicKeymapMacroSend f m id loops').done = true ∧
        (dynamicKeymapMacroSend f m id loops').actions = (dynamicKeymapMacroSend f m id loops).actions) := by
  cases hstart : macroStart f m id with
  | none =>
    obtain ⟨hactions, hdone⟩ := macroSend_of_none hstart loops
    obtain ⟨hactions', hdone'⟩ := macroSend_of_none hstart loops'
    rw [hactions, hactions', hdone, hdone']
    exact ⟨fun _ hx => hx, fun _ => ⟨rfl, rfl⟩⟩
  | some p =>
    obtain ⟨hactions, hdone⟩ := macroSend_of_start hstart loops
    obtain ⟨hactions', hdone'⟩ := macroSend_of_start hstart loops'
    obtain ⟨hmono, hkeep⟩ := @play_mono m loops' loops p hle
    rw [hactions, hactions', hdone, hdone']
    refine ⟨hmono, fun h => ?_⟩
    rw [hkeep h]
    exact ⟨h, rfl⟩

theorem mem_actions_of_done (hdone : (dynamicKeymapMacroSend f m id loops).done = true) {x : Decoded}
    (hx : x ∈ (dynamicKeymapMacroSend f m id loops').actions) : x ∈ (dynamicKeymapMacroSend f m id loops).actions := by
  rcases Nat.le_total loops' loops with hle | hle
  · exact (macroSend_mono hle).1 x hx
  · rwa [((macroSend_mono hle).2 hdone).2] at hx

theorem comesToEnd_iff : ComesToEnd f m id ↔ ∃ loops, (dynamicKeymapMacroSend f m id loops).done = true := by
  unfold ComesToEnd
  cases hstart : macroStart f m id with
  | none => exact ⟨fun _ => ⟨0, (macroSend_of_none hstart 0).2⟩, fun _ _ hp => nomatch hp⟩
  | some p =>
    have hdone : ∀ loops, (dynamicKeymapMacroSend f m id loops).done = (play m loops p).done := fun loops =>
      (macroSend_of_start hstart loops).2
    simp only [hdone, play_done_iff, Option.mem_def, Option.some.injEq, forall_eq']

theorem exists_loops (f : Firmware) (m : EepromMem) :
    ∃ loops, ∀ id, ComesToEnd f m id → (dynamicKeymapMacroSend f m id loops).done = true := by
  classical
  have hchoose : ∀ id, ∃ loops, ComesToEnd f m id → (dynamicKeymapMacroSend f m id loops).done = true := by
    intro id
    by_cases h : ComesToEnd f m id
    · obtain ⟨loops, hdone⟩ := comesToEnd_iff.mp h
      exact ⟨loops, fun _ => hdone⟩
    · exact ⟨0, fun h' => absurd h' h⟩
  choose loops hloops using hchoose
  have hfinite : Finite UInt8 :=
    Finite.of_injective (fun id : UInt8 => (⟨id.toNat, id.toNat_lt⟩ : Fin 256)) fun a b h =>
      UInt8.toNat_inj.mp (Fin.mk.inj h)
  obtain ⟨bound, hbound⟩ := (Set.finite_range loops).bddAbove
  exact ⟨bound, fun id h => ((macroSend_mono (hbound ⟨id, rfl⟩)).2 (hloops id h)).1⟩

end Send

section Nested

variable {σ : Type} {env : Pipeline σ} {f : Firmware} {m : EepromMem} {id i j : UInt8} {loops : Nat}

theorem vialKeycode_isSome {call : MacroCall σ} {pressed : Bool} {keycode : UInt16}
    (h : qkModsMax < keycode → ∀ k ∈ env.starts keycode pressed, ∀ b, (call k b).isSome = true) (b : Keyboard σ) :
    (vialKeycode env call pressed keycode b).isSome = true := by
  rw [vialKeycode]
  split
  · rfl
  · rename_i hkeycode
    exact env.returns call pressed _ (h (UInt16.not_le.mp hkeycode))

theorem runAction_isSome {call : MacroCall σ} {a : MacroAction}
    (h : ∀ k ∈ actionStarts env a, ∀ b, (call k b).isSome = true) (b : Keyboard σ) :
    (runAction env call b a).isSome = true := by
  cases a with
  | vialKeycodeTap keycode =>
    have hdown := vialKeycode_isSome (fun hkeycode k hk => h k ⟨hkeycode, .inl hk⟩) b
    obtain ⟨b', hb'⟩ := Option.isSome_iff_exists.mp hdown
    rw [runAction, vialKeycodeTap, vialKeycodeDown, hb', Option.bind_some]
    exact vialKeycode_isSome (fun hkeycode k hk => h k ⟨hkeycode, .inr hk⟩) b'
  | vialKeycodeDown keycode => exact vialKeycode_isSome (fun hkeycode k hk => h k ⟨hkeycode, hk⟩) b
  | vialKeycodeUp keycode => exact vialKeycode_isSome (fun hkeycode k hk => h k ⟨hkeycode, hk⟩) b
  | _ => rfl

theorem foldlM_isSome {α β : Type} {step : β → α → Option β} : ∀ {l : List α},
    (∀ a ∈ l, ∀ b, (step b a).isSome = true) → ∀ b, (l.foldlM step b).isSome = true := by
  intro l
  induction l with
  | nil => exact fun _ _ => rfl
  | cons a l ih =>
    intro h b
    obtain ⟨b', hb'⟩ := Option.isSome_iff_exists.mp (h a List.mem_cons_self b)
    rw [List.foldlM_cons, hb']
    exact ih (fun a ha => h a (List.mem_cons_of_mem _ ha)) b'

theorem playMacro_isSome {call : MacroCall σ} (hdone : (dynamicKeymapMacroSend f m i loops).done = true)
    (h : ∀ k, Starts env f m i k → ∀ b, (call k b).isSome = true) (b : Keyboard σ) :
    (playMacro env f m loops call i b).isSome = true := by
  rw [playMacro, if_pos hdone]
  refine foldlM_isSome (fun x hx b => runAction_isSome (fun k hk b => ?_) b) b
  rw [sendMacro]
  split
  · rename_i hplays
    exact h k ⟨hplays, loops, x, hx, hk⟩ b
  · rfl

theorem lt_macroCount_of_start (h : (macroStart f m j).isSome = true) : j.toNat < f.macroCount.toNat := by
  by_contra hge
  have hid : j ≥ f.macroCount := UInt8.le_iff_toNat_le.mpr (Nat.le_of_not_lt hge)
  simp only [macroStart, if_pos hid] at h
  cases h

theorem reachable_ncard (hid : (macroStart f m id).isSome = true) {R : UInt8 → UInt8 → Prop}
    (hR : ∀ i j, R i j → (macroStart f m j).isSome = true) :
    (reachable R id).Finite ∧ (reachable R id).ncard ≤ f.macroCount.toNat := by
  have hmaps : ∀ j ∈ reachable R id, j.toNat ∈ (Finset.range f.macroCount.toNat : Set Nat) := by
    intro j hj
    rw [Finset.coe_range, Set.mem_Iio]
    refine lt_macroCount_of_start (f := f) (m := m) ?_
    cases hj with
    | refl => exact hid
    | tail _ hij => exact hR _ _ hij
  have hinj : Set.InjOn UInt8.toNat (reachable R id) := fun _ _ _ _ h => UInt8.toNat_inj.mp h
  refine ⟨Set.Finite.of_injOn hmaps hinj (Finset.finite_toSet _), ?_⟩
  have hcard := Set.ncard_le_ncard_of_injOn _ hmaps hinj (Finset.finite_toSet _)
  rwa [Set.ncard_coe_finset, Finset.card_range] at hcard

/-- With a pipeline that returns, playable macros finish, and no more of them are nested than there are. -/
theorem pressKeycode_isSome {keycode : UInt16}
    (h : ∀ id ∈ macroId keycode, Playable f m (Starts env f m) id) :
    ∃ loops, ∀ b, (pressKeycode env f m loops f.macroCount.toNat keycode b).isSome = true := by
  obtain ⟨loops, hloops⟩ := exists_loops f m
  refine ⟨loops, fun b => ?_⟩
  rw [pressKeycode]
  split
  · rename_i id hid
    obtain ⟨hcircle, hend⟩ := h id hid
    rw [sendMacro]
    split
    · rename_i hplays
      obtain ⟨hfinite, hcard⟩ := @reachable_ncard f m id hplays (Starts env f m) fun _ _ hij => hij.1
      exact tie_returns hcircle hfinite hcard
        (fun j hj call hcall b => playMacro_isSome (hloops j (hend j hj)) hcall b) b
    · rfl
  · rfl

end Nested

section Exactly

variable {σ : Type} {f : Firmware} {m : EepromMem} {id i j : UInt8} {loops : Nat}
  {before after other : UInt16 → Bool → Keyboard σ → Keyboard σ}
  {registerCode16 : Bool → UInt16 → Keyboard σ → Keyboard σ} {act : MacroAction → Keyboard σ → Keyboard σ}

theorem macroId_gt {keycode : UInt16} (h : macroId keycode = some id) : qkModsMax < keycode := by
  rw [macroId] at h
  split at h
  · rename_i hrange
    exact UInt16.lt_of_lt_of_le (by decide) hrange.1
  · cases h

theorem starts_plain {i j : UInt8} :
    Starts (plainPipeline before after other registerCode16 act) f m i j ↔ Presses f m i j := by
  have haction : ∀ a : MacroAction, j ∈ actionStarts (plainPipeline before after other registerCode16 act) a ↔
      (pressedKeycode a).bind macroId = some j := by
    intro a
    cases a with
    | vialKeycodeTap keycode =>
      exact ⟨fun ⟨_, h⟩ => h.elim (fun h => h.2) fun h => (nomatch h.1), fun h => ⟨macroId_gt h, .inl ⟨rfl, h⟩⟩⟩
    | vialKeycodeDown keycode => exact ⟨fun ⟨_, h⟩ => h.2, fun h => ⟨macroId_gt h, rfl, h⟩⟩
    | vialKeycodeUp keycode => exact ⟨fun ⟨_, h⟩ => (nomatch h.1), fun h => nomatch h⟩
    | _ => exact ⟨fun h => h.elim, fun h => nomatch h⟩
  simp only [Starts, Presses, haction]

theorem vialKeycode_sends {call : MacroCall σ} {keycode : UInt16} {b : Keyboard σ} (hid : macroId keycode = some j)
    (h : (vialKeycode (plainPipeline before after other registerCode16 act) call true keycode b).isSome = true) :
    ∃ b', (call j b').isSome = true := by
  rw [vialKeycode, if_neg (UInt16.not_le.mpr (macroId_gt hid))] at h
  simp only [plainPipeline, plainActionExec, hid] at h
  rw [Option.isSome_map] at h
  exact ⟨_, h⟩

theorem runAction_sends {call : MacroCall σ} {a : MacroAction} {b : Keyboard σ}
    (hj : (pressedKeycode a).bind macroId = some j)
    (h : (runAction (plainPipeline before after other registerCode16 act) call b a).isSome = true) :
    ∃ b', (call j b').isSome = true := by
  cases a with
  | vialKeycodeTap keycode =>
    rw [runAction, vialKeycodeTap] at h
    exact vialKeycode_sends hj (Option.isSome_of_isSome_bind h)
  | vialKeycodeDown keycode => exact vialKeycode_sends hj h
  | _ => cases hj

theorem foldlM_sends {α β : Type} {step : β → α → Option β} {a : α} : ∀ {l : List α} {b : β}, a ∈ l →
    (l.foldlM step b).isSome = true → ∃ b', (step b' a).isSome = true := by
  intro l
  induction l with
  | nil => exact fun ha => nomatch ha
  | cons a' l ih =>
    intro b ha h
    rw [List.foldlM_cons] at h
    rcases List.mem_cons.mp ha with rfl | ha
    · exact ⟨b, Option.isSome_of_isSome_bind h⟩
    · obtain ⟨last, hlast⟩ := Option.isSome_iff_exists.mp h
      obtain ⟨b', -, hrest⟩ := Option.bind_eq_some_iff.mp hlast
      exact ih ha (Option.isSome_iff_exists.mpr ⟨last, hrest⟩)

/-- A macro that returns has come to its end, and so has every macro whose keycode it presses. -/
theorem playMacro_sends {call : MacroCall σ} (hij : Presses f m i j) (b : Keyboard σ)
    (h : (playMacro (plainPipeline before after other registerCode16 act) f m loops call i b).isSome = true) :
    ∃ b', (call j b').isSome = true := by
  obtain ⟨hplays, loops', x, hx, hj⟩ := hij
  rw [playMacro] at h
  split at h
  · rename_i hdone
    obtain ⟨b', hb'⟩ := foldlM_sends (mem_actions_of_done hdone hx) h
    obtain ⟨b'', hb''⟩ := runAction_sends hj hb'
    rw [sendMacro, if_pos hplays] at hb''
    exact ⟨b'', hb''⟩
  · cases h

theorem pressKeycode_returns {depth : Nat} {keycode : UInt16} {b : Keyboard σ}
    (h : (pressKeycode (plainPipeline before after other registerCode16 act) f m loops depth keycode b).isSome = true) :
    ∀ id ∈ macroId keycode, Playable f m (Presses f m) id := by
  intro id hid
  have hbody := fun (call : MacroCall σ) i j (hij : Presses f m i j) b h =>
    @playMacro_sends σ f m i j loops before after other registerCode16 act call hij b h
  rw [Option.mem_def] at hid
  rw [pressKeycode, hid] at h
  simp only [sendMacro] at h
  split at h
  · refine ⟨NoCircle.of_returns hbody h, fun j hj => ?_⟩
    obtain ⟨n, b', hb'⟩ := tie_reachable hbody h hj
    cases n with
    | zero => cases hb'
    | succ n =>
      rw [tie, playMacro] at hb'
      split at hb'
      · rename_i hdone
        exact comesToEnd_iff.mpr ⟨loops, hdone⟩
      · cases hb'
  · -- Nothing is played, and so nothing is pressed.
    rename_i hnone
    have hstart := Option.not_isSome_iff_eq_none.mp hnone
    have hone : ∀ j, ReflTransGen (Presses f m) id j → j = id := by
      intro j hj
      rcases hj.cases_head with heq | ⟨k, ⟨-, loops', x, hx, -⟩, -⟩
      · exact heq.symm
      · rw [(macroSend_of_none hstart loops').1] at hx
        cases hx
    refine ⟨fun j hj hjj => ?_, fun j hj => ?_⟩
    · obtain ⟨k, hjk, -⟩ := TransGen.head'_iff.mp hjj
      obtain ⟨-, loops', x, hx, -⟩ := hone j hj ▸ hjk
      rw [(macroSend_of_none hstart loops').1] at hx
      cases hx
    · rw [hone j hj]
      exact comesToEnd_iff.mpr ⟨0, (macroSend_of_none hstart 0).2⟩

/-- The press of a macro key comes to an end, with no more macros played in one another than there are, if no macro
that is started leads back to itself and each comes to its end. If the other features start no macros, then it does so
only in this case, however deep the macros may nest. -/
theorem macro_press_finishes (f : Firmware) (m : EepromMem) (keycode : UInt16) :
    (∀ (σ : Type) (env : Pipeline σ), (∀ id ∈ macroId keycode, Playable f m (Starts env f m) id) →
      ∃ loops, ∀ b, (pressKeycode env f m loops f.macroCount.toNat keycode b).isSome = true) ∧
    ∀ (σ : Type) (before after other : UInt16 → Bool → Keyboard σ → Keyboard σ)
      (registerCode16 : Bool → UInt16 → Keyboard σ → Keyboard σ) (act : MacroAction → Keyboard σ → Keyboard σ)
      (b : Keyboard σ),
      ((∃ loops, (pressKeycode (plainPipeline before after other registerCode16 act) f m loops f.macroCount.toNat keycode
        b).isSome = true) ↔ ∀ id ∈ macroId keycode, Playable f m (Presses f m) id) ∧
      ((∃ loops depth, (pressKeycode (plainPipeline before after other registerCode16 act) f m loops depth keycode
        b).isSome = true) ↔ ∀ id ∈ macroId keycode, Playable f m (Presses f m) id) := by
  refine ⟨fun σ env => pressKeycode_isSome, fun σ before after other registerCode16 act b => ?_⟩
  have hstarts : Starts (plainPipeline before after other registerCode16 act) f m = Presses f m := by
    funext i j
    exact propext starts_plain
  have hfinishes : (∀ id ∈ macroId keycode, Playable f m (Presses f m) id) →
      ∃ loops, (pressKeycode (plainPipeline before after other registerCode16 act) f m loops f.macroCount.toNat keycode
        b).isSome = true := by
    intro h
    rw [← hstarts] at h
    obtain ⟨loops, hloops⟩ := pressKeycode_isSome h
    exact ⟨loops, hloops b⟩
  refine ⟨⟨fun ⟨_, h⟩ => pressKeycode_returns h, hfinishes⟩, ⟨fun ⟨_, _, h⟩ => pressKeycode_returns h, fun h => ?_⟩⟩
  obtain ⟨loops, hloops⟩ := hfinishes h
  exact ⟨loops, _, hloops⟩

/-- A macro that taps the next one. -/
example : (pressKeycode (plainPipeline (fun _ _ b => b) (fun _ _ b => b) (fun _ _ b => b) (fun _ _ b => b)
    (fun _ b => b)) .onePad (macroArea .onePad [1, 5, 0x01, 0x77, 0, 97]) 3 2 qkMacro
      (⟨0, ()⟩ : Keyboard Unit)).isSome = true := by
  decide +kernel

def selfTap : EepromMem := macroArea .onePad [1, 5, 0x77, 0xFF]

theorem macro_taps_itself :
    ¬ ∀ (f : Firmware) (m : EepromMem) (id : UInt8), id < 128 →
      ∃ loops, (pressKeycode (plainPipeline (fun _ _ b => b) (fun _ _ b => b) (fun _ _ b => b) (fun _ _ b => b)
        (fun _ b => b)) f m loops f.macroCount.toNat (qkMacro + id.toUInt16) (⟨0, ()⟩ : Keyboard Unit)).isSome = true := by
  intro h
  obtain ⟨loops, hpress⟩ := h .onePad selfTap 0 (by decide)
  have hself : Presses .onePad selfTap 0 0 :=
    ⟨by decide, 1, ⟨.vialKeycodeTap 0x7700, 108, 4⟩, by decide, by decide⟩
  exact (pressKeycode_returns hpress 0 (by decide)).noCircle 0 .refl (.single hself)

end Exactly

end MacroNesting
end Keys
end VialQmk
