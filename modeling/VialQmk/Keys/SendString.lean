import VialQmk.Keys.MacroSend
import Mathlib.Algebra.Group.Nat.Defs

/-!
# Keys.SendString

`send_string_with_delay_impl` of `send_string.c` on what its getter reads, a string with its terminator.

* `sendString`: the actions, or nothing where the getter is called behind the terminator.
* `CutInKey`: the string ends behind a prefix and the code for a tap, a press or a release.
* `send_string_iff`: the getter stays inside just for the other strings, and an encoded list of actions is performed as
  it is just where each of its delays is an `int`.
-/

namespace VialQmk
namespace Keys

/-- The tables for the characters, `SENDSTRING_BELL` with audio, and the width of an `int`. -/
structure SendStringConfig where
  keycode : UInt8 → UInt8
  shift : UInt8 → Bool
  altgr : UInt8 → Bool
  dead : UInt8 → Bool
  bell : Bool
  intWidth : Nat

inductive SendAction where
  | tapCode (keycode : UInt8)
  | tapCodeDelay (keycode delay : UInt8)
  | registerCode (keycode : UInt8)
  | unregisterCode (keycode : UInt8)
  | waitMs (ms : Int)
  | playBell
deriving DecidableEq

def kcLeftShift : UInt8 := 0xE1
def kcRightAlt : UInt8 := 0xE6
def kcSpace : UInt8 := 0x2C

variable (cfg : SendStringConfig) (interval : UInt8)

def waitInterval : SendAction := .waitMs interval.toNat

def sendChar (c : UInt8) : List SendAction :=
  if cfg.bell ∧ c = 7 then [.playBell]
  else
    (if cfg.shift c then [.registerCode kcLeftShift, waitInterval interval] else []) ++
    (if cfg.altgr c then [.registerCode kcRightAlt, waitInterval interval] else []) ++
    [.tapCodeDelay (cfg.keycode c) interval, waitInterval interval] ++
    (if cfg.altgr c then [.unregisterCode kcRightAlt, waitInterval interval] else []) ++
    (if cfg.shift c then [.unregisterCode kcLeftShift, waitInterval interval] else []) ++
    (if cfg.dead c then [.tapCode kcSpace, waitInterval interval] else [])

def IsDigit (c : UInt8) : Prop := 48 ≤ c ∧ c ≤ 57
deriving Decidable

def digitValue (c : UInt8) : Nat := c.toNat - 48

/-- The loop over the digits: `ms`, which wraps as an `int`, the character behind them and what is left. -/
def readDelay {w : Nat} : BitVec w → UInt8 → List UInt8 → Option (BitVec w × UInt8 × List UInt8)
  | ms, c, [] => if IsDigit c then none else some (ms, c, [])
  | ms, c, d :: string =>
    if IsDigit c then readDelay (ms * BitVec.ofNat w 10 + BitVec.ofNat w (digitValue c)) d string
    else some (ms, c, d :: string)

theorem length_readDelay {w : Nat} {ms ms' : BitVec w} {c c' : UInt8} {string rest : List UInt8}
    (h : readDelay ms c string = some (ms', c', rest)) : rest.length ≤ string.length := by
  induction string generalizing ms c with
  | nil =>
    rw [readDelay] at h
    split at h
    · cases h
    · cases h
      exact Nat.le_refl _
  | cons d string ih =>
    rw [readDelay] at h
    split at h
    · exact Nat.le_succ_of_le (ih h)
    · cases h
      exact Nat.le_refl _

def keyAction (code keycode : UInt8) : SendAction :=
  if code = ssTapCode then .tapCode keycode
  else if code = ssDownCode then .registerCode keycode
  else .unregisterCode keycode

/-- The actions of one turn of the loop, with those of the turns behind it. -/
def before (acts : List SendAction) (more : Option (List SendAction)) : Option (List SendAction) :=
  more.map (acts ++ ·)

@[simp] theorem before_some (acts more : List SendAction) : before acts (some more) = some (acts ++ more) := rfl

@[simp] theorem before_nil (more : Option (List SendAction)) : before [] more = more := by
  cases more <;> rfl

@[simp] theorem before_before (acts acts' : List SendAction) (more : Option (List SendAction)) :
    before acts (before acts' more) = before (acts ++ acts') more := by
  cases more <;> simp [before]

@[simp] theorem before_eq_none {acts : List SendAction} {more : Option (List SendAction)} :
    before acts more = none ↔ more = none := by
  cases more <;> simp [before]

/-- `send_string_with_delay_impl`, on what `send_string_get_next_ram` has still to read. -/
def sendString : List UInt8 → Option (List SendAction)
  | [] => none
  | c :: string =>
    if c = 0 then some []
    else if c = ssQmkPrefix then
      match string with
      | [] => none
      | code :: string =>
        if IsKeyCode code then
          match string with
          | [] => none
          | keycode :: string => before [keyAction code keycode, waitInterval interval] (sendString string)
        else if code = ssDelayCode then
          match string with
          | [] => none
          | d :: string =>
            match _h : readDelay (0 : BitVec cfg.intWidth) d string with
            | none => none
            | some (ms, stop, rest) =>
              if stop = 0 then some [.waitMs ms.toInt, waitInterval interval]
              else before [.waitMs ms.toInt, waitInterval interval] (sendString rest)
        else if code = 0 then some [waitInterval interval]
        else before [waitInterval interval] (sendString string)
    else before (sendChar cfg interval c) (sendString string)
termination_by string => string.length
decreasing_by
  all_goals simp only [List.length_cons]
  · omega
  · have := length_readDelay _h
    omega
  · omega
  · omega

section Items

variable {cfg : SendStringConfig} {interval : UInt8}

theorem sendString_terminator (string : List UInt8) : sendString cfg interval (0 :: string) = some [] := by
  rw [sendString.eq_def]
  rfl

theorem sendString_char {c : UInt8} (hc : c ≠ 0) (hp : c ≠ ssQmkPrefix) (string : List UInt8) :
    sendString cfg interval (c :: string) = before (sendChar cfg interval c) (sendString cfg interval string) := by
  rw [sendString.eq_def]
  simp only [hc, hp, if_false]

theorem prefix_ne_zero : ssQmkPrefix ≠ 0 := by decide

theorem sendString_key {code : UInt8} (hk : IsKeyCode code) (keycode : UInt8) (string : List UInt8) :
    sendString cfg interval (ssQmkPrefix :: code :: keycode :: string) =
      before [keyAction code keycode, waitInterval interval] (sendString cfg interval string) := by
  rw [sendString.eq_def]
  simp only [prefix_ne_zero, hk, if_true, if_false]

theorem delay_not_key : ¬ IsKeyCode ssDelayCode := by decide

theorem sendString_delay {d stop : UInt8} {string rest : List UInt8} {ms : BitVec cfg.intWidth}
    (h : readDelay 0 d string = some (ms, stop, rest)) :
    sendString cfg interval (ssQmkPrefix :: ssDelayCode :: d :: string) =
      if stop = 0 then some [.waitMs ms.toInt, waitInterval interval]
      else before [.waitMs ms.toInt, waitInterval interval] (sendString cfg interval rest) := by
  rw [sendString.eq_def]
  simp only [prefix_ne_zero, delay_not_key, if_true, if_false]
  split
  · rename_i h'
    rw [h] at h'
    cases h'
  · rename_i h'
    rw [h] at h'
    cases h'
    rfl

theorem sendString_other {code : UInt8} (hc : code ≠ 0) (hk : ¬ IsKeyCode code) (hd : code ≠ ssDelayCode)
    (string : List UInt8) :
    sendString cfg interval (ssQmkPrefix :: code :: string) =
      before [waitInterval interval] (sendString cfg interval string) := by
  rw [sendString.eq_def]
  simp only [prefix_ne_zero, hk, hd, hc, if_true, if_false]

def delayValue {w : Nat} (ms : BitVec w) (digits : List UInt8) : BitVec w :=
  digits.foldl (fun ms d => ms * BitVec.ofNat w 10 + BitVec.ofNat w (digitValue d)) ms

theorem readDelay_digits {w : Nat} {digits : List UInt8} {stop : UInt8} (hds : ∀ d ∈ digits, IsDigit d)
    (hs : ¬ IsDigit stop) (rest : List UInt8) (ms : BitVec w) :
    ∃ d string, digits ++ stop :: rest = d :: string ∧
      readDelay ms d string = some (delayValue ms digits, stop, rest) := by
  induction digits generalizing ms with
  | nil =>
    refine ⟨stop, rest, rfl, ?_⟩
    cases rest <;> simp [readDelay, hs, delayValue]
  | cons d digits ih =>
    obtain ⟨d', string, hstring, hread⟩ := ih (fun e he => hds e (List.mem_cons_of_mem d he))
      (ms * BitVec.ofNat w 10 + BitVec.ofNat w (digitValue d))
    refine ⟨d, digits ++ stop :: rest, rfl, ?_⟩
    rw [hstring, readDelay, if_pos (hds d List.mem_cons_self), hread]
    rfl

theorem sendString_digits {digits : List UInt8} {stop : UInt8} (hds : ∀ d ∈ digits, IsDigit d)
    (hs : ¬ IsDigit stop) (rest : List UInt8) :
    sendString cfg interval (ssQmkPrefix :: ssDelayCode :: (digits ++ stop :: rest)) =
      if stop = 0 then
        some [.waitMs (delayValue (0 : BitVec cfg.intWidth) digits).toInt, waitInterval interval]
      else before [.waitMs (delayValue (0 : BitVec cfg.intWidth) digits).toInt, waitInterval interval]
        (sendString cfg interval rest) := by
  obtain ⟨d, string, hstring, hread⟩ := readDelay_digits hds hs rest (0 : BitVec cfg.intWidth)
  rw [hstring, sendString_delay hread]

end Items

/-- A string that ends with a whole item: a character, or a prefix with all that its code takes. -/
inductive Whole : List UInt8 → Prop where
  | nil : Whole []
  | char {c : UInt8} {string : List UInt8} : c ≠ 0 → c ≠ ssQmkPrefix → Whole string → Whole (c :: string)
  | key {code keycode : UInt8} {string : List UInt8} : IsKeyCode code → keycode ≠ 0 → Whole string →
      Whole (ssQmkPrefix :: code :: keycode :: string)
  | delay {digits : List UInt8} {stop : UInt8} {string : List UInt8} : (∀ d ∈ digits, IsDigit d) → ¬ IsDigit stop →
      stop ≠ 0 → Whole string → Whole (ssQmkPrefix :: ssDelayCode :: digits ++ stop :: string)
  | other {code : UInt8} {string : List UInt8} : code ≠ 0 → ¬ IsKeyCode code → code ≠ ssDelayCode → Whole string →
      Whole (ssQmkPrefix :: code :: string)

/-- The string ends behind a prefix and a code that takes a keycode. -/
def CutInKey (string : List UInt8) : Prop :=
  ∃ whole code, Whole whole ∧ IsKeyCode code ∧ string = whole ++ [ssQmkPrefix, code]

section Strings

variable {cfg : SendStringConfig} {interval : UInt8}

theorem sendString_whole {string : List UInt8} (h : Whole string) :
    ∃ acts, ∀ rest,
      sendString cfg interval (string ++ rest) = before acts (sendString cfg interval rest) := by
  induction h with
  | nil => exact ⟨[], fun rest => by simp⟩
  | @char c string hc hp _ ih =>
    obtain ⟨acts, ih⟩ := ih
    refine ⟨sendChar cfg interval c ++ acts, fun rest => ?_⟩
    rw [List.cons_append, sendString_char hc hp, ih]
    simp
  | @key code keycode string hk _ _ ih =>
    obtain ⟨acts, ih⟩ := ih
    refine ⟨[keyAction code keycode, waitInterval interval] ++ acts, fun rest => ?_⟩
    simp only [List.cons_append]
    rw [sendString_key hk, ih]
    simp
  | @delay digits stop string hds hs h0 _ ih =>
    obtain ⟨acts, ih⟩ := ih
    refine ⟨[.waitMs (delayValue (0 : BitVec cfg.intWidth) digits).toInt, waitInterval interval] ++ acts,
      fun rest => ?_⟩
    simp only [List.cons_append, List.append_assoc]
    rw [sendString_digits hds hs, if_neg h0, ih]
    simp
  | @other code string hc hk hd _ ih =>
    obtain ⟨acts, ih⟩ := ih
    refine ⟨[waitInterval interval] ++ acts, fun rest => ?_⟩
    simp only [List.cons_append]
    rw [sendString_other hc hk hd, ih]
    simp

inductive Tail : List UInt8 → Prop where
  | nil : Tail []
  | opened : Tail [ssQmkPrefix]
  | key {code : UInt8} : IsKeyCode code → Tail [ssQmkPrefix, code]
  | delay {digits : List UInt8} : (∀ d ∈ digits, IsDigit d) → Tail (ssQmkPrefix :: ssDelayCode :: digits)

theorem digits_or_stop (text : List UInt8) :
    (∀ d ∈ text, IsDigit d) ∨
    ∃ digits stop rest, text = digits ++ stop :: rest ∧ (∀ d ∈ digits, IsDigit d) ∧ ¬ IsDigit stop := by
  induction text with
  | nil => exact .inl (by simp)
  | cons c text ih =>
    by_cases hc : IsDigit c
    · obtain hall | ⟨digits, stop, rest, rfl, hds, hs⟩ := ih
      · exact .inl (List.forall_mem_cons.mpr ⟨hc, hall⟩)
      · exact .inr ⟨c :: digits, stop, rest, rfl, List.forall_mem_cons.mpr ⟨hc, hds⟩, hs⟩
    · exact .inr ⟨[], c, text, rfl, by simp, hc⟩

theorem exists_whole_tail (text : List UInt8) (h : ∀ c ∈ text, c ≠ 0) :
    ∃ whole tail, Whole whole ∧ Tail tail ∧ text = whole ++ tail := by
  cases text with
  | nil => exact ⟨[], [], .nil, .nil, rfl⟩
  | cons c text =>
    obtain ⟨hc, htext⟩ := List.forall_mem_cons.mp h
    by_cases hp : c = ssQmkPrefix
    · subst hp
      cases text with
      | nil => exact ⟨[], _, .nil, .opened, rfl⟩
      | cons code text =>
        obtain ⟨hcode, htext⟩ := List.forall_mem_cons.mp htext
        by_cases hk : IsKeyCode code
        · cases text with
          | nil => exact ⟨[], _, .nil, .key hk, rfl⟩
          | cons keycode text =>
            obtain ⟨hkeycode, htext⟩ := List.forall_mem_cons.mp htext
            obtain ⟨whole, tail, hw, ht, rfl⟩ := exists_whole_tail text htext
            exact ⟨_, tail, .key hk hkeycode hw, ht, rfl⟩
        · by_cases hd : code = ssDelayCode
          · subst hd
            obtain hall | ⟨digits, stop, rest, rfl, hds, hs⟩ := digits_or_stop text
            · exact ⟨[], _, .nil, .delay hall, rfl⟩
            · have hstop : stop ≠ 0 := htext stop (by simp)
              obtain ⟨whole, tail, hw, ht, rfl⟩ := exists_whole_tail rest fun c hc => htext c (by simp [hc])
              exact ⟨_, tail, .delay hds hs hstop hw, ht, by simp⟩
          · obtain ⟨whole, tail, hw, ht, rfl⟩ := exists_whole_tail text htext
            exact ⟨_, tail, .other hcode hk hd hw, ht, rfl⟩
    · obtain ⟨whole, tail, hw, ht, rfl⟩ := exists_whole_tail text htext
      exact ⟨_, tail, .char hc hp hw, ht, rfl⟩
termination_by text.length
decreasing_by all_goals simp_all <;> omega

/-- Behind a cut key the getter reads on, behind any other tail it has read the terminator last. -/
theorem sendString_tail {tail : List UInt8} (h : Tail tail) :
    sendString cfg interval (tail ++ [0]) = none ↔ ∃ code, IsKeyCode code ∧ tail = [ssQmkPrefix, code] := by
  cases h with
  | nil => simp [sendString_terminator]
  | opened =>
    have h0 : ¬ IsKeyCode 0 := by decide
    have hd : (0 : UInt8) ≠ ssDelayCode := by decide
    simp [sendString, prefix_ne_zero, h0, hd]
  | @key code hk => simp [sendString_key hk, sendString, hk]
  | @delay digits hds =>
    have h0 : ¬ IsDigit 0 := by decide
    have hsome := @sendString_digits cfg interval digits 0 hds h0 []
    simp only [List.cons_append, hsome, if_true, reduceCtorEq, false_iff]
    rintro ⟨code, hk, heq⟩
    injection heq with _ heq
    injection heq with heq _
    exact delay_not_key (heq ▸ hk)

theorem sendString_none_iff {text : List UInt8} (h : ∀ c ∈ text, c ≠ 0) :
    sendString cfg interval (text ++ [0]) = none ↔ CutInKey text := by
  constructor
  · intro hnone
    obtain ⟨whole, tail, hw, ht, rfl⟩ := exists_whole_tail text h
    obtain ⟨acts, hacts⟩ := @sendString_whole cfg interval whole hw
    rw [List.append_assoc, hacts, before_eq_none] at hnone
    obtain ⟨code, hk, rfl⟩ := (sendString_tail ht).mp hnone
    exact ⟨whole, code, hw, hk, rfl⟩
  · rintro ⟨whole, code, hw, hk, rfl⟩
    obtain ⟨acts, hacts⟩ := @sendString_whole cfg interval whole hw
    rw [List.append_assoc, hacts, before_eq_none]
    exact (sendString_tail (.key hk)).mpr ⟨code, hk, rfl⟩

end Strings

/-- What the macros of `send_string_keycodes.h` encode. -/
inductive SendItem where
  | char (c : UInt8)
  | tap (keycode : UInt8)
  | down (keycode : UInt8)
  | up (keycode : UInt8)
  | delay (numeral : List UInt8)

namespace SendItem

/-- A character of the tables that is no prefix, a keycode, or a decimal numeral. -/
def Valid : SendItem → Prop
  | char c => c ≠ 0 ∧ c < 128 ∧ c ≠ ssQmkPrefix
  | tap keycode | down keycode | up keycode => keycode ≠ 0
  | delay numeral => ∀ d ∈ numeral, IsDigit d

def encode : SendItem → List UInt8
  | char c => [c]
  | tap keycode => [ssQmkPrefix, ssTapCode, keycode]
  | down keycode => [ssQmkPrefix, ssDownCode, keycode]
  | up keycode => [ssQmkPrefix, ssUpCode, keycode]
  | delay numeral => ssQmkPrefix :: ssDelayCode :: numeral ++ [124]

def numeralValue (numeral : List UInt8) : Nat := numeral.foldl (fun n d => n * 10 + digitValue d) 0

def perform : SendItem → List SendAction
  | char c => sendChar cfg interval c
  | tap keycode => [.tapCode keycode, waitInterval interval]
  | down keycode => [.registerCode keycode, waitInterval interval]
  | up keycode => [.unregisterCode keycode, waitInterval interval]
  | delay numeral => [.waitMs (numeralValue numeral), waitInterval interval]

def IsInt : SendItem → Prop
  | delay numeral => numeralValue numeral < 2 ^ (cfg.intWidth - 1)
  | _ => True

variable {cfg interval}

/-- What is done of an item, with its delay as the `int` that the loop counts up. -/
def sent (cfg : SendStringConfig) (interval : UInt8) : SendItem → List SendAction
  | delay numeral => [.waitMs (delayValue (0 : BitVec cfg.intWidth) numeral).toInt, waitInterval interval]
  | item => item.perform cfg interval

theorem sendString_encode {item : SendItem} (h : item.Valid) (rest : List UInt8) :
    sendString cfg interval (item.encode ++ rest) = before (item.sent cfg interval) (sendString cfg interval rest) := by
  cases item with
  | char c => exact sendString_char h.1 h.2.2 rest
  | tap keycode => exact sendString_key (.inl rfl) keycode rest
  | down keycode => exact sendString_key (.inr (.inl rfl)) keycode rest
  | up keycode => exact sendString_key (.inr (.inr rfl)) keycode rest
  | delay numeral =>
    have hs : ¬ IsDigit 124 := by decide
    have h0 : (124 : UInt8) ≠ 0 := by decide
    simp only [encode, List.cons_append, List.append_assoc, List.nil_append]
    rw [sendString_digits h hs, if_neg h0]
    rfl

theorem sendString_items {items : List SendItem} (h : ∀ item ∈ items, item.Valid) :
    sendString cfg interval (items.flatMap encode ++ [0]) = some (items.flatMap (sent cfg interval)) := by
  induction items with
  | nil => exact sendString_terminator []
  | cons item items ih =>
    obtain ⟨hitem, hitems⟩ := List.forall_mem_cons.mp h
    rw [List.flatMap_cons, List.append_assoc, sendString_encode hitem, ih hitems, before_some, List.flatMap_cons]

theorem delayValue_ofNat {w : Nat} (n : Nat) (numeral : List UInt8) :
    delayValue (BitVec.ofNat w n) numeral =
      BitVec.ofNat w (numeral.foldl (fun n d => n * 10 + digitValue d) n) := by
  induction numeral generalizing n with
  | nil => rfl
  | cons d numeral ih =>
    have hstep : delayValue (BitVec.ofNat w n) (d :: numeral) =
        delayValue (BitVec.ofNat w n * BitVec.ofNat w 10 + BitVec.ofNat w (digitValue d)) numeral := rfl
    rw [hstep, ← BitVec.ofNat_mul, ← BitVec.ofNat_add, ih, List.foldl_cons]

theorem toInt_ofNat_eq_iff {w n : Nat} : (BitVec.ofNat w n).toInt = n ↔ n < 2 ^ (w - 1) := by
  constructor
  · intro h
    have hlt := BitVec.toInt_lt (x := BitVec.ofNat w n)
    rw [h] at hlt
    exact_mod_cast hlt
  · intro h
    cases w with
    | zero =>
      have h0 : n = 0 := by simpa using h
      subst h0
      rfl
    | succ w =>
      have hpow : 2 ^ (w + 1) = 2 * 2 ^ w := by rw [Nat.pow_succ, Nat.mul_comm]
      have hw : n < 2 ^ w := h
      have hmod : n % 2 ^ (w + 1) = n := Nat.mod_eq_of_lt (by omega)
      rw [BitVec.toInt_eq_toNat_of_lt, BitVec.toNat_ofNat, hmod]
      rw [BitVec.toNat_ofNat, hmod]
      omega

theorem sent_eq_iff (item : SendItem) : item.sent cfg interval = item.perform cfg interval ↔ item.IsInt cfg := by
  cases item with
  | delay numeral =>
    have hvalue : delayValue (BitVec.ofNat cfg.intWidth 0) numeral = BitVec.ofNat cfg.intWidth (numeralValue numeral) :=
      delayValue_ofNat 0 numeral
    simp [sent, perform, IsInt, hvalue, toInt_ofNat_eq_iff]
  | _ => simp [sent, IsInt]

theorem length_sent (item : SendItem) : (item.sent cfg interval).length = (item.perform cfg interval).length := by
  cases item <;> rfl

theorem flatMap_sent_eq_iff (items : List SendItem) :
    items.flatMap (sent cfg interval) = items.flatMap (perform cfg interval) ↔ ∀ item ∈ items, item.IsInt cfg := by
  induction items with
  | nil => simp
  | cons item items ih =>
    rw [List.flatMap_cons, List.flatMap_cons, List.forall_mem_cons, ← ih, ← sent_eq_iff]
    constructor
    · intro h
      exact List.append_inj h (length_sent item)
    · rintro ⟨hitem, hitems⟩
      rw [hitem, hitems]

end SendItem

/-- The getter reads up to the terminator at most just where no tap, press or release is cut off from its keycode, and
encoded actions are those performed just where each delay is an `int`. -/
theorem send_string_iff :
    (∀ text : List UInt8, (∀ c ∈ text, c ≠ 0) →
      ((∃ acts, sendString cfg interval (text ++ [0]) = some acts) ↔ ¬ CutInKey text)) ∧
    (∀ items : List SendItem, (∀ item ∈ items, item.Valid) →
      (sendString cfg interval (items.flatMap SendItem.encode ++ [0]) =
          some (items.flatMap (SendItem.perform cfg interval)) ↔
        ∀ item ∈ items, item.IsInt cfg)) := by
  constructor
  · intro text htext
    rw [← @sendString_none_iff cfg interval text htext, ← Option.isSome_iff_exists,
      Option.isSome_iff_ne_none]
  · intro items hitems
    rw [SendItem.sendString_items hitems, Option.some_inj, SendItem.flatMap_sent_eq_iff]

def letterTables : SendStringConfig :=
  ⟨fun c => if c = 65 then 4 else 0, (· = 65), fun _ => false, fun _ => false, false, 32⟩

/-- A capital A, a tap of the backspace key and a delay of 25 ms. -/
theorem send_string_iff_three :
    sendString letterTables 5 ([.char 65, .tap 0x2A, .delay [50, 53]].flatMap SendItem.encode ++ [0]) =
      some [.registerCode kcLeftShift, .waitMs 5, .tapCodeDelay 4 5, .waitMs 5, .unregisterCode kcLeftShift, .waitMs 5,
        .tapCode 0x2A, .waitMs 5, .waitMs 25, .waitMs 5] := by
  have hvalid : ∀ item ∈ [SendItem.char 65, .tap 0x2A, .delay [50, 53]], item.Valid := by
    simp [SendItem.Valid]
    decide
  have hint : ∀ item ∈ [SendItem.char 65, .tap 0x2A, .delay [50, 53]], item.IsInt letterTables := by
    simp [SendItem.IsInt]
    decide
  exact ((send_string_iff letterTables 5).2 _ hvalid).mpr hint

/-- Behind the code of a tap the terminator is the keycode. -/
theorem cut_tap_reads_on : ¬ ∀ (cfg : SendStringConfig) (interval : UInt8) (text : List UInt8), (∀ c ∈ text, c ≠ 0) →
    ∃ acts, sendString cfg interval (text ++ [0]) = some acts := by
  intro h
  let cfg : SendStringConfig := ⟨id, fun _ => false, fun _ => false, fun _ => false, false, 32⟩
  obtain ⟨acts, hacts⟩ := h cfg 0 [ssQmkPrefix, ssTapCode] (by simp [ssQmkPrefix, ssTapCode])
  have hkey := @sendString_key cfg 0 ssTapCode (.inl rfl) 0 []
  have hnil : sendString cfg 0 [] = none := by
    rw [sendString.eq_def]
  rw [hnil] at hkey
  cases hkey.symm.trans hacts

end Keys
end VialQmk
