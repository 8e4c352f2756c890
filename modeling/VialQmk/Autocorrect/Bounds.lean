import VialQmk.Autocorrect.Typing

/-!
# Autocorrect.Bounds

The accesses of `process_autocorrect` to its arrays: `typo_buffer` and, where a typo is found, `typo` and `correct`.

* `accesses`: the accesses for one key, in the order of the code.
* `accesses_inBounds`: they are all within the arrays unless the text does not fit at a typo (`Fits`). The typed word
  is what follows the last word break, and so it can be shorter than a typo of several words.
-/

namespace VialQmk
namespace Autocorrect

open Lib

variable {autocorrections : List Autocorrection} {d : AutocorrectData}

inductive Buffer where
  | typoBuffer
  | typo
  | correct
  deriving DecidableEq

def Buffer.size (maxLength : Nat) : Buffer → Nat
  | .typoBuffer => maxLength
  | .typo => maxLength + 1
  | .correct => maxLength + 10

structure Access where
  buffer : Buffer
  index : Int
  deriving DecidableEq

def Access.InBounds (maxLength : Nat) (a : Access) : Prop := 0 ≤ a.index ∧ a.index < a.buffer.size maxLength
deriving Decidable

def accessesFrom (buffer : Buffer) (index : Int) (n : Nat) : List Access :=
  (List.range n).map fun i : Nat => ⟨buffer, index + i⟩

def appendAccesses (maxLength size : Nat) : List Access :=
  if maxLength ≤ size then
    -- The `memmove` reads and writes.
    accessesFrom .typoBuffer 1 (maxLength - 1) ++ accessesFrom .typoBuffer 0 (maxLength - 1) ++
      [⟨.typoBuffer, (maxLength - 1 : Nat)⟩]
  else
    [⟨.typoBuffer, size⟩]

def walkAccesses (data : List Nat) : List Nat → Nat → Nat → List Access
  | [], _, _ => []
  | key :: keys, state, code =>
    ⟨.typoBuffer, keys.length⟩ ::
      match followKey data key state code with
      | some (some state) =>
        if data.length ≤ state then
          []
        else
          match data[state]? with
          | none => []
          | some code => if code &&& 128 ≠ 0 then [] else walkAccesses data keys state code
      | _ => []

def gatherAccesses (typoBuffer : List Nat) : Nat → List Access
  | 0 => []
  | i + 1 =>
    ⟨.typoBuffer, i⟩ ::
      if typoBuffer[i]? = some KC_SPC ∧ i + 1 ≠ typoBuffer.length then [] else gatherAccesses typoBuffer i

def foundAccesses (d : AutocorrectData) (typoBuffer : List Nat) (state : Nat) : List Access :=
  match d.data[state]?, readString (d.data.drop (state + 1)) with
  | some code, some changes =>
    let backspaces := code &&& 63
    let spaceLast := typoBuffer.getLast? = some KC_SPC
    let (typoStart, typoLen) := gatherTypo typoBuffer typoBuffer.length 0
    let typoLen := if spaceLast then typoLen - 1 else typoLen
    let typo := ((typoBuffer.drop typoStart).take typoLen).map fun key => key - KC_A + 'a'.toNat
    let offset := if spaceLast then backspaces else backspaces + 1
    -- What `strcpy` copies.
    let copied := (typo.takeWhile fun char => char % 256 ≠ 0).length + 1
    ⟨.typoBuffer, (typoBuffer.length : Int) - 1⟩ :: gatherAccesses typoBuffer typoBuffer.length ++
      accessesFrom .typoBuffer typoStart typoLen ++ accessesFrom .typo 0 typoLen ++
      accessesFrom .typo 0 copied ++ accessesFrom .correct 0 copied ++
      accessesFrom .correct ((typoLen : Int) - offset) (changes.length + 1)
  | _, _ => []

def typeAccesses (d : AutocorrectData) (keycode : Nat) (s : AutocorrectState) : List Access :=
  let typoBuffer := appendKeycode d.maxLength keycode s.typoBuffer
  appendAccesses d.maxLength s.typoBuffer.length ++
    if typoBuffer.length < d.minLength then
      []
    else
      match d.data[0]? with
      | none => []
      | some code =>
        walkAccesses d.data typoBuffer.reverse 0 code ++
          match walk d.data typoBuffer.reverse 0 code with
          | some (some state) =>
            foundAccesses d typoBuffer state ++ if keycode = KC_SPC then [⟨.typoBuffer, 0⟩] else []
          | _ => []

structure KeyEvent where
  keycode : Nat
  record : KeyRecord
  mods : BitVec 8

/-- The code in front of the buffer: the keycode that goes into it, and the state then. -/
def typedKeycode (ev : KeyEvent) (s : AutocorrectState) : Option (Nat × AutocorrectState) :=
  if QK_AUTOCORRECT_ON ≤ ev.keycode ∧ ev.keycode ≤ QK_AUTOCORRECT_TOGGLE ∧ ev.record.pressed then
    none
  else if !s.enabled || !ev.record.pressed then
    none
  else
    match processAutocorrectDefaultHandler ev.keycode ev.record ev.mods s with
    | (none, _) => none
    | (some (keycode, mods), s) =>
      if inRange keycode (KC_A, KC_Z) then
        some (keycode, s)
      else if inRange keycode (KC_1, KC_0) || inRange keycode (KC_TAB, KC_SEMICOLON) ||
          inRange keycode (KC_GRAVE, KC_SLASH) then
        some (KC_SPC, s)
      else if keycode = KC_ENTER then
        some (KC_SPC, { s with typoBuffer := [] })
      else if keycode = KC_QUOT then
        some (if mods &&& MOD_MASK_SHIFT ≠ 0 then KC_SPC else keycode, s)
      else
        none

def accesses (d : AutocorrectData) (ev : KeyEvent) (s : AutocorrectState) : List Access :=
  match typedKeycode ev s with
  | none => []
  | some (keycode, s) => typeAccesses d keycode s

def processEvent (d : AutocorrectData) (ev : KeyEvent) (s : AutocorrectState) : Option Processed :=
  processAutocorrect d ev.keycode ev.record ev.mods s

/-- Every access is within its array. After one that is not, there is no next state to speak of. -/
def StaysInBounds (d : AutocorrectData) : List KeyEvent → AutocorrectState → Prop
  | [], _ => True
  | ev :: events, s =>
    (∀ a ∈ accesses d ev s, a.InBounds d.maxLength) ∧
      match processEvent d ev s with
      | none => False
      | some p => StaysInBounds d events p.state

instance decidableStaysInBounds (d : AutocorrectData) : ∀ (events : List KeyEvent) (s : AutocorrectState),
    Decidable (StaysInBounds d events s)
  | [], _ => isTrue trivial
  | ev :: events, s =>
    have : Decidable (match processEvent d ev s with
        | none => False
        | some p => StaysInBounds d events p.state) :=
      match processEvent d ev s with
      | none => isFalse id
      | some p => decidableStaysInBounds d events p.state
    inferInstanceAs (Decidable (_ ∧ _))

/-- The typed buffer with the key, where the key goes into it. -/
def bufferWith (d : AutocorrectData) (ev : KeyEvent) (s : AutocorrectState) : Option (List Nat) :=
  (typedKeycode ev s).map fun p => appendKeycode d.maxLength p.1 p.2.typoBuffer

/-- The typed word: what follows the last word break, one at the end apart. -/
def typedWord (typoBuffer : List Nat) : List Nat :=
  (if typoBuffer.getLast? = some KC_SPC then typoBuffer.dropLast else typoBuffer).rtakeWhile (· ≠ KC_SPC)

/-- How much of the typo, from its end, the correction replaces. -/
def replaced (e : Autocorrection) : Nat := (strip e.typo).length - commonPrefix (strip e.typo) e.correction

def replacement (e : Autocorrection) : List Nat := ((changes e).map Char.toNat).takeWhile (· ≠ 0)

/-- The typed word has the part that is replaced, and there is room for the corrected one. -/
structure Fits (maxLength : Nat) (typoBuffer : List Nat) (e : Autocorrection) : Prop where
  word : replaced e ≤ (typedWord typoBuffer).length
  room : (typedWord typoBuffer).length - replaced e + (replacement e).length + 1 ≤ maxLength + 10

instance (maxLength : Nat) (typoBuffer : List Nat) (e : Autocorrection) : Decidable (Fits maxLength typoBuffer e) :=
  decidable_of_iff (replaced e ≤ (typedWord typoBuffer).length ∧
    (typedWord typoBuffer).length - replaced e + (replacement e).length + 1 ≤ maxLength + 10)
    ⟨fun ⟨word, room⟩ => ⟨word, room⟩, fun h => ⟨h.word, h.room⟩⟩

/-- Whenever the buffer ends with a typo, its correction fits. -/
def TyposFit (autocorrections : List Autocorrection) (d : AutocorrectData) : List KeyEvent → AutocorrectState → Prop
  | [], _ => True
  | ev :: events, s =>
    (∀ typoBuffer ∈ bufferWith d ev s, ∀ e ∈ autocorrections, e.typo.map typoCode <:+ typoBuffer →
      Fits d.maxLength typoBuffer e) ∧
      match processEvent d ev s with
      | none => True
      | some p => TyposFit autocorrections d events p.state

instance decidableTyposFit (autocorrections : List Autocorrection) (d : AutocorrectData) :
    ∀ (events : List KeyEvent) (s : AutocorrectState), Decidable (TyposFit autocorrections d events s)
  | [], _ => isTrue trivial
  | ev :: events, s =>
    have : Decidable (match processEvent d ev s with
        | none => True
        | some p => TyposFit autocorrections d events p.state) :=
      match processEvent d ev s with
      | none => isTrue trivial
      | some p => decidableTyposFit autocorrections d events p.state
    inferInstanceAs (Decidable (_ ∧ _))

theorem accessesFrom_inBounds {maxLength n : Nat} {buffer : Buffer} {index : Int} :
    (∀ a ∈ accessesFrom buffer index n, a.InBounds maxLength) ↔
      n = 0 ∨ 0 ≤ index ∧ index + n ≤ buffer.size maxLength := by
  constructor
  · intro h
    rcases Nat.eq_zero_or_pos n with rfl | hpos
    · exact .inl rfl
    · have hat : ∀ i, i < n → 0 ≤ index + i ∧ index + i < buffer.size maxLength := fun i hi =>
        h ⟨buffer, index + i⟩ (List.mem_map.mpr ⟨i, List.mem_range.mpr hi, rfl⟩)
      have hfirst := hat 0 hpos
      have hlast := hat (n - 1) (by omega)
      exact .inr ⟨by omega, by omega⟩
  · rintro h a ha
    obtain ⟨i, hi, rfl⟩ := List.mem_map.mp ha
    have hlt := List.mem_range.mp hi
    rcases h with rfl | ⟨hlow, hhigh⟩
    · exact absurd hlt (Nat.not_lt_zero i)
    · exact ⟨by simp only; omega, by simp only; omega⟩

theorem appendAccesses_inBounds {maxLength size : Nat} (hpos : 0 < maxLength) :
    ∀ a ∈ appendAccesses maxLength size, a.InBounds maxLength := by
  intro a ha
  rw [appendAccesses] at ha
  split at ha
  · rcases List.mem_append.mp ha with ha | ha
    · rcases List.mem_append.mp ha with ha | ha
      · exact accessesFrom_inBounds.mpr (.inr ⟨by omega, by simp only [Buffer.size]; omega⟩) a ha
      · exact accessesFrom_inBounds.mpr (.inr ⟨by omega, by simp only [Buffer.size]; omega⟩) a ha
    · rw [List.mem_singleton.mp ha]
      exact ⟨by simp only; omega, by simp only [Buffer.size]; omega⟩
  · rw [List.mem_singleton.mp ha]
    exact ⟨by simp only; omega, by simp only [Buffer.size]; omega⟩

theorem walkAccesses_inBounds {maxLength : Nat} {data : List Nat} : ∀ {keys : List Nat} {state code : Nat},
    keys.length ≤ maxLength → ∀ a ∈ walkAccesses data keys state code, a.InBounds maxLength := by
  intro keys
  induction keys with
  | nil =>
    intro state code _ a ha
    cases ha
  | cons key keys ih =>
    intro state code hlength a ha
    rw [List.length_cons] at hlength
    rw [walkAccesses] at ha
    rcases List.mem_cons.mp ha with rfl | ha
    · exact ⟨by simp only; omega, by simp only [Buffer.size]; omega⟩
    · split at ha
      · split at ha
        · cases ha
        · split at ha
          · cases ha
          · split at ha
            · cases ha
            · exact ih (by omega) a ha
      · cases ha

variable {typoBuffer : List Nat} {e : Autocorrection} {s : AutocorrectState}

theorem gatherAccesses_inBounds {maxLength : Nat} : ∀ {i : Nat}, i ≤ maxLength →
    ∀ a ∈ gatherAccesses typoBuffer i, a.InBounds maxLength := by
  intro i
  induction i with
  | zero =>
    intro _ a ha
    cases ha
  | succ i ih =>
    intro hle a ha
    rw [gatherAccesses] at ha
    rcases List.mem_cons.mp ha with rfl | ha
    · exact ⟨by simp only; omega, by simp only [Buffer.size]; omega⟩
    · split at ha
      · cases ha
      · exact ih (by omega) a ha

theorem gatherTypo_of_lt : ∀ {i typoLen : Nat}, i < typoBuffer.length →
    gatherTypo typoBuffer i typoLen =
      (i - ((typoBuffer.take i).rtakeWhile (· ≠ KC_SPC)).length,
        typoLen + ((typoBuffer.take i).rtakeWhile (· ≠ KC_SPC)).length) := by
  intro i
  induction i with
  | zero =>
    intro typoLen _
    rfl
  | succ i ih =>
    intro typoLen hlt
    have hi : i < typoBuffer.length := Nat.lt_of_succ_lt hlt
    have hget := List.getElem?_eq_getElem hi
    have htake : typoBuffer.take (i + 1) = typoBuffer.take i ++ [typoBuffer[i]] := by
      rw [List.take_add_one, hget]
      rfl
    rw [gatherTypo, htake, List.rtakeWhile_concat, hget]
    by_cases hspace : typoBuffer[i] = KC_SPC
    · rw [if_pos ⟨congrArg some hspace, Nat.ne_of_lt hlt⟩, if_neg (by simp [hspace])]
      rfl
    · rw [if_neg fun h => hspace (Option.some.inj h.1), if_pos (by simp [hspace]), ih (Nat.lt_of_succ_lt hlt),
        List.length_append, List.length_singleton, Nat.add_sub_add_right]
      congr 1
      omega

theorem gatherTypo_typedWord (hne : typoBuffer ≠ []) :
    ∃ start len, gatherTypo typoBuffer typoBuffer.length 0 = (start, len) ∧ start + len = typoBuffer.length ∧
      (if typoBuffer.getLast? = some KC_SPC then len - 1 else len) = (typedWord typoBuffer).length := by
  obtain ⟨front, last, rfl⟩ := (List.eq_nil_or_concat typoBuffer).resolve_left hne
  rw [List.concat_eq_append] at hne ⊢
  have hfront : ((front ++ [last]).take front.length).rtakeWhile (· ≠ KC_SPC) = front.rtakeWhile (· ≠ KC_SPC) := by
    rw [List.take_left]
  have hword := (List.rtakeWhile_suffix (fun key => decide (key ≠ KC_SPC)) front).length_le
  refine ⟨front.length - (front.rtakeWhile (· ≠ KC_SPC)).length, (front.rtakeWhile (· ≠ KC_SPC)).length + 1, ?_, ?_,
    ?_⟩
  · rw [List.length_append, List.length_singleton, gatherTypo, if_neg fun h => h.2 (by simp),
      gatherTypo_of_lt (by simp), hfront, Nat.zero_add, Nat.add_comm 1]
  · rw [List.length_append, List.length_singleton]
    omega
  · rw [typedWord, List.getLast?_concat]
    by_cases hspace : last = KC_SPC
    · rw [if_pos (congrArg some hspace), if_pos (congrArg some hspace), List.dropLast_concat]
      rfl
    · rw [if_neg fun h => hspace (Option.some.inj h), if_neg fun h => hspace (Option.some.inj h),
        List.rtakeWhile_concat, if_pos (by simp [hspace]), List.length_append, List.length_singleton]

theorem offset_eq_replaced {typed : List Char} (htyped : ∀ c ∈ typed, isTypoChar c = true)
    (hsuffix : e.typo <:+ typed) (hne : e.typo ≠ []) (hpos : 0 ≤ backspaces e) :
    (if (typed.map typoCode).getLast? = some KC_SPC then (backspaces e).toNat else (backspaces e).toNat + 1) =
      replaced e := by
  have hspace := getLast?_typed htyped hsuffix hne
  obtain ⟨-, hprefix, -⟩ := @commonPrefix_spec (strip e.typo) e.correction
  rw [← wordBoundaryEnding_iff] at hspace
  rw [backspaces] at hpos ⊢
  rw [replaced]
  by_cases hending : wordBoundaryEnding e.typo = true
  · rw [if_pos (hspace.mpr hending)]
    rw [if_pos hending] at hpos ⊢
    omega
  · rw [if_neg fun h => hending (hspace.mp h)]
    rw [if_neg hending] at hpos ⊢
    omega

theorem takeWhile_terminated {text rest : List Nat} :
    (text ++ [0] ++ rest).takeWhile (· ≠ 0) = text.takeWhile (· ≠ 0) := by
  rw [List.append_assoc, List.takeWhile_append, List.singleton_append, List.takeWhile_cons_of_neg (by simp)]
  split
  · rename_i hall
    rw [List.append_nil, (List.takeWhile_prefix _).eq_of_length hall]
  · rfl

theorem readString_leaf {off : Nat} (hleaf : LeafAt d.data off e) :
    readString (d.data.drop (off + 1)) = some (replacement e) := by
  obtain ⟨bytes, hbytes, rest, hrest⟩ := hleaf
  obtain ⟨-, -, -, rfl⟩ := leafData_eq hbytes
  have hdrop : d.data.drop (off + 1) = (changes e).map Char.toNat ++ [0] ++ rest := by
    rw [← List.drop_drop, ← hrest]
    rfl
  rw [hdrop, readString, if_pos (by simp), takeWhile_terminated]
  rfl

theorem foundTypo_isSome {off : Nat} (hleaf : LeafAt d.data off e) {typed : List Char}
    (htyped : ∀ c ∈ typed, isTypoChar c = true) (hsuffix : e.typo <:+ typed) (hne : e.typo ≠ [])
    (hfits : Fits d.maxLength (typed.map typoCode) e) : ∃ a, foundTypo d (typed.map typoCode) off = some a := by
  obtain ⟨hcode, hlt⟩ := hleaf.code
  have hpos : 0 ≤ backspaces e := by
    obtain ⟨bytes, hbytes, -⟩ := hleaf
    exact (leafData_eq hbytes).2.1
  have hbuffer : typed.map typoCode ≠ [] := fun h =>
    hne (List.suffix_nil.mp (List.map_eq_nil_iff.mp h ▸ hsuffix))
  obtain ⟨start, len, hgather, -, hlen⟩ := gatherTypo_typedWord hbuffer
  rw [foundTypo, hcode, readString_leaf hleaf, hgather]
  simp only [Option.bind_eq_bind, Option.bind_some, (code_bits hlt).2.2.2.2.2.2, hlen,
    offset_eq_replaced htyped hsuffix hne hpos]
  exact ⟨_, if_pos ⟨hfits.word, hfits.room⟩⟩

theorem foundAccesses_inBounds {off : Nat} (hleaf : LeafAt d.data off e) {typed : List Char}
    (htyped : ∀ c ∈ typed, isTypoChar c = true) (hsuffix : e.typo <:+ typed) (hne : e.typo ≠ [])
    (hlength : typed.length ≤ d.maxLength) :
    (∀ a ∈ foundAccesses d (typed.map typoCode) off, a.InBounds d.maxLength) ↔
      Fits d.maxLength (typed.map typoCode) e := by
  obtain ⟨hcode, hlt⟩ := hleaf.code
  have hpos : 0 ≤ backspaces e := by
    obtain ⟨bytes, hbytes, -⟩ := hleaf
    exact (leafData_eq hbytes).2.1
  have hbuffer : typed.map typoCode ≠ [] := fun h =>
    hne (List.suffix_nil.mp (List.map_eq_nil_iff.mp h ▸ hsuffix))
  obtain ⟨start, len, hgather, hsum, hlen⟩ := gatherTypo_typedWord hbuffer
  have hle : (typedWord (typed.map typoCode)).length ≤ len := by
    rw [← hlen]
    split
    · exact Nat.sub_le _ _
    · exact Nat.le_refl _
  have hbufferPos := List.length_pos_iff.mpr hbuffer
  have hbufferLength : (typed.map typoCode).length = typed.length := List.length_map _
  rw [foundAccesses, hcode, readString_leaf hleaf, hgather]
  simp only [(code_bits hlt).2.2.2.2.2.2, hlen, offset_eq_replaced htyped hsuffix hne hpos]
  have hcopied : (((((typed.map typoCode).drop start).take (typedWord (typed.map typoCode)).length).map fun key =>
      key - KC_A + 'a'.toNat).takeWhile fun char => char % 256 ≠ 0).length ≤
        (typedWord (typed.map typoCode)).length := by
    refine (List.takeWhile_prefix _).length_le.trans ?_
    rw [List.length_map]
    exact List.length_take_le _ _
  generalize (((((typed.map typoCode).drop start).take (typedWord (typed.map typoCode)).length).map fun key =>
      key - KC_A + 'a'.toNat).takeWhile fun char => char % 256 ≠ 0).length = copied at hcopied
  rw [List.forall_mem_append]
  constructor
  · rintro ⟨-, hlast⟩
    rcases accessesFrom_inBounds.mp hlast with h | ⟨hlow, hhigh⟩
    · exact absurd h (Nat.succ_ne_zero _)
    · have hword : replaced e ≤ (typedWord (typed.map typoCode)).length := by omega
      simp only [Buffer.size] at hhigh
      exact ⟨hword, by omega⟩
  · intro hfits
    have hroom := hfits.room
    have hword := hfits.word
    refine ⟨?_, accessesFrom_inBounds.mpr (.inr ⟨by omega, by simp only [Buffer.size]; omega⟩)⟩
    simp only [List.cons_append, List.forall_mem_cons, List.forall_mem_append]
    refine ⟨⟨by simp only; omega, by simp only [Buffer.size]; omega⟩,
      ⟨⟨⟨⟨gatherAccesses_inBounds (by omega), ?_⟩, ?_⟩, ?_⟩, ?_⟩⟩
    all_goals exact accessesFrom_inBounds.mpr (.inr ⟨by omega, by simp only [Buffer.size]; omega⟩)

structure BufferInv (d : AutocorrectData) (typed : List Char) (s : AutocorrectState) : Prop where
  buffer : s.typoBuffer = typed.map typoCode
  chars : ∀ c ∈ typed, isTypoChar c = true
  length : typed.length ≤ d.maxLength

theorem BufferInv.take {typed : List Char} {s' : AutocorrectState} (h : BufferInv d typed s) {n : Nat}
    (htake : s'.typoBuffer = s.typoBuffer.take n) : BufferInv d (typed.take n) s' := by
  refine ⟨by rw [htake, h.buffer, List.map_take], fun c hc => h.chars c (List.mem_of_mem_take hc), ?_⟩
  rw [List.length_take]
  have hlength := h.length
  omega

theorem processAutocorrectDefaultHandler_take (keycode : Nat) (record : KeyRecord) (mods : BitVec 8)
    (s : AutocorrectState) :
    ∃ n, (processAutocorrectDefaultHandler keycode record mods s).2.typoBuffer = s.typoBuffer.take n := by
  have hkeep : ∃ n, s.typoBuffer = s.typoBuffer.take n := ⟨s.typoBuffer.length, List.take_length.symm⟩
  have hcheck : ∀ keycode mods, ∃ n, (checkMods keycode mods s).2.typoBuffer = s.typoBuffer.take n := by
    intro keycode mods
    rw [checkMods]
    split
    · exact ⟨0, rfl⟩
    · exact hkeep
  rw [processAutocorrectDefaultHandler]
  repeat' split
  all_goals first | exact hkeep | exact hcheck _ _

theorem letter_code : ∀ keycode, keycode ≤ KC_Z → KC_A ≤ keycode →
    isTypoChar (Char.ofNat (keycode + 93)) = true ∧ typoCode (Char.ofNat (keycode + 93)) = keycode := by
  decide

theorem typedKeycode_some {ev : KeyEvent} {s s' : AutocorrectState} {keycode : Nat}
    (h : typedKeycode ev s = some (keycode, s')) :
    processEvent d ev s = typeKeycode d keycode s' ∧ (∃ c, isTypoChar c = true ∧ keycode = typoCode c) ∧
      ∃ n, s'.typoBuffer = s.typoBuffer.take n := by
  have hspace : ∃ c, isTypoChar c = true ∧ KC_SPC = typoCode c := ⟨':', by decide, rfl⟩
  have hhandler := processAutocorrectDefaultHandler_take ev.keycode ev.record ev.mods s
  rw [typedKeycode] at h
  split at h
  · cases h
  rename_i hswitch
  split at h
  · cases h
  rename_i hoff
  rw [Bool.or_eq_true, not_or, Bool.not_eq_true, Bool.not_eq_true] at hoff
  rw [processEvent, processAutocorrect, if_neg hswitch, if_neg (by simp [hoff.1]), if_neg (by simp [hoff.2])]
  obtain ⟨⟨_ | ⟨handled, mods⟩, handledState⟩, hhandled⟩ :
    ∃ handled, processAutocorrectDefaultHandler ev.keycode ev.record ev.mods s = handled := ⟨_, rfl⟩
  · rw [hhandled] at h
    cases h
  rw [hhandled] at h hhandler ⊢
  simp only at h ⊢
  by_cases hletter : inRange handled (KC_A, KC_Z) = true
  · rw [if_pos hletter] at h ⊢
    rw [inRange, Bool.and_eq_true, decide_eq_true_eq, decide_eq_true_eq] at hletter
    obtain ⟨hchar, hcode⟩ := letter_code handled hletter.2 hletter.1
    cases h
    exact ⟨rfl, ⟨_, hchar, hcode.symm⟩, hhandler⟩
  rw [if_neg hletter] at h ⊢
  by_cases hbreak : (inRange handled (KC_1, KC_0) || inRange handled (KC_TAB, KC_SEMICOLON) ||
      inRange handled (KC_GRAVE, KC_SLASH)) = true
  · rw [if_pos hbreak] at h ⊢
    cases h
    exact ⟨rfl, hspace, hhandler⟩
  rw [if_neg hbreak] at h ⊢
  by_cases henter : handled = KC_ENTER
  · rw [if_pos henter] at h ⊢
    cases h
    exact ⟨rfl, hspace, 0, rfl⟩
  rw [if_neg henter] at h ⊢
  by_cases hquote : handled = KC_QUOT
  · have hback : handled ≠ KC_BSPC := by
      rw [hquote]
      decide
    rw [if_pos hquote] at h
    rw [if_neg hback, if_pos hquote]
    cases h
    refine ⟨rfl, ?_, hhandler⟩
    split
    · exact hspace
    · exact ⟨quote, by decide, hquote⟩
  · rw [if_neg hquote] at h
    cases h

theorem typedKeycode_none {ev : KeyEvent} {s : AutocorrectState} (h : typedKeycode ev s = none) :
    ∃ p, processEvent d ev s = some p ∧ ∃ n, p.state.typoBuffer = s.typoBuffer.take n := by
  have hkeep : ∃ n, s.typoBuffer = s.typoBuffer.take n := ⟨s.typoBuffer.length, List.take_length.symm⟩
  have hhandler := processAutocorrectDefaultHandler_take ev.keycode ev.record ev.mods s
  rw [typedKeycode] at h
  rw [processEvent, processAutocorrect]
  split at h
  · rename_i hswitch
    rw [if_pos hswitch]
    refine ⟨_, rfl, ?_⟩
    split
    · exact hkeep
    · split <;> exact ⟨0, rfl⟩
  rename_i hswitch
  rw [if_neg hswitch]
  by_cases hdisabled : (!s.enabled) = true
  · rw [if_pos hdisabled]
    exact ⟨_, rfl, 0, rfl⟩
  by_cases hreleased : (!ev.record.pressed) = true
  · rw [if_neg hdisabled, if_pos hreleased]
    exact ⟨_, rfl, hkeep⟩
  rw [if_neg hdisabled, if_neg hreleased]
  rw [if_neg (by simp_all)] at h
  obtain ⟨⟨_ | ⟨handled, mods⟩, handledState⟩, hhandled⟩ :
    ∃ handled, processAutocorrectDefaultHandler ev.keycode ev.record ev.mods s = handled := ⟨_, rfl⟩
  · rw [hhandled] at hhandler ⊢
    exact ⟨_, rfl, hhandler⟩
  rw [hhandled] at h hhandler ⊢
  simp only at h ⊢
  obtain ⟨n, hn⟩ := hhandler
  split at h
  · cases h
  rename_i hletter
  split at h
  · cases h
  rename_i hbreak
  split at h
  · cases h
  rename_i henter
  split at h
  · cases h
  rename_i hquote
  rw [if_neg hletter, if_neg hbreak, if_neg henter, if_neg hquote]
  split
  · refine ⟨_, rfl, min (s.typoBuffer.take n).length.pred n, ?_⟩
    rw [hn, List.dropLast_eq_take, List.take_take]
    rfl
  · exact ⟨_, rfl, 0, rfl⟩

theorem BufferInv.append (hd : Generated autocorrections d) {typed : List Char} (h : BufferInv d typed s) {c : Char}
    (hc : isTypoChar c = true) :
    ∃ typed' : List Char, appendKeycode d.maxLength (typoCode c) s.typoBuffer = typed'.map typoCode ∧
      (∀ c ∈ typed', isTypoChar c = true) ∧ typed'.length ≤ d.maxLength := by
  obtain ⟨kept, hkept, hroom, happend⟩ := appendKeycode_typed hd.maxLength_pos h.length c
  rw [← h.buffer] at happend
  refine ⟨kept ++ [c], happend, fun x hx => ?_, ?_⟩
  · rcases List.mem_append.mp hx with hx | hx
    · exact h.chars x (hkept.subset hx)
    · rwa [List.mem_singleton.mp hx]
  · rw [List.length_append, List.length_singleton]
    exact hroom

/-- The accesses while a key goes into the buffer are within the arrays exactly if the correction fits, and then the
code goes on with letters in the buffer again. -/
theorem typeAccesses_inBounds (hd : Generated autocorrections d) {typed : List Char} (h : BufferInv d typed s)
    {c : Char} (hc : isTypoChar c = true) : ((∀ a ∈ typeAccesses d (typoCode c) s, a.InBounds d.maxLength) ↔
      ∀ e ∈ autocorrections, e.typo.map typoCode <:+ appendKeycode d.maxLength (typoCode c) s.typoBuffer →
        Fits d.maxLength (appendKeycode d.maxLength (typoCode c) s.typoBuffer) e) ∧
    ((∀ a ∈ typeAccesses d (typoCode c) s, a.InBounds d.maxLength) →
      ∃ p typed', typeKeycode d (typoCode c) s = some p ∧ BufferInv d typed' p.state) := by
  obtain ⟨typed', happend, hchars, hlength⟩ := h.append hd hc
  have hsuffix : ∀ e ∈ autocorrections, (e.typo.map typoCode <:+ typed'.map typoCode ↔ e.typo <:+ typed') :=
    fun e he => suffix_typed_iff (hd.accepted.chars e he) hchars
  have happendBounds := @appendAccesses_inBounds d.maxLength s.typoBuffer.length hd.maxLength_pos
  rw [typeAccesses, typeKeycode, happend]
  have hkept : BufferInv d typed' { s with typoBuffer := typed'.map typoCode } := ⟨rfl, hchars, hlength⟩
  by_cases hshort : (typed'.map typoCode).length < d.minLength
  · -- The buffer is shorter than every typo.
    rw [if_pos hshort, if_pos hshort, List.append_nil]
    refine ⟨⟨fun _ e he hend => ?_, fun _ => happendBounds⟩, fun _ => ⟨_, typed', rfl, hkept⟩⟩
    have hle := ((hsuffix e he).mp hend).length_le
    have hmin := hd.minLength e he
    rw [List.length_map] at hshort
    omega
  rw [if_neg hshort, if_neg hshort, List.forall_mem_append]
  obtain ⟨code, hcode, ⟨hwalk, hnone⟩ | ⟨off, e, hwalk, he, hend, hleaf⟩⟩ :=
    walk_serializeTrie hd.accepted hd.data hchars
  · rw [hcode]
    simp only [Option.bind_eq_bind, Option.bind_some, hwalk, List.append_nil]
    refine ⟨⟨fun _ e he hend => absurd ((hsuffix e he).mp hend) (hnone e he), fun _ => ⟨happendBounds, ?_⟩⟩,
      fun _ => ⟨_, typed', rfl, hkept⟩⟩
    exact walkAccesses_inBounds (by rw [List.length_reverse, List.length_map]; exact hlength)
  · have hfound := foundAccesses_inBounds hleaf hchars hend (hd.typo_ne_nil e he) hlength
    have hwalkBounds : ∀ a ∈ walkAccesses d.data (typed'.map typoCode).reverse 0 code, a.InBounds d.maxLength :=
      walkAccesses_inBounds (by rw [List.length_reverse, List.length_map]; exact hlength)
    have hspaceBounds : ∀ a ∈ (if typoCode c = KC_SPC then [(⟨.typoBuffer, 0⟩ : Access)] else []),
        a.InBounds d.maxLength := by
      have hpos := hd.maxLength_pos
      intro a ha
      split at ha
      · rw [List.mem_singleton.mp ha]
        exact ⟨Int.le_refl 0, by simp only [Buffer.size]; omega⟩
      · cases ha
    rw [hcode]
    simp only [Option.bind_eq_bind, Option.bind_some, hwalk, List.forall_mem_append, hfound]
    refine ⟨⟨fun hall e' he' hend' => ?_, fun hfit => ⟨happendBounds, hwalkBounds, ?_, hspaceBounds⟩⟩, fun hall => ?_⟩
    · rw [hd.suffix_unique he he' hend ((hsuffix e' he').mp hend')]
      exact hall.2.2.1
    · exact hfit e he ((hsuffix e he).mpr hend)
    · obtain ⟨a, ha⟩ := foundTypo_isSome hleaf hchars hend (hd.typo_ne_nil e he) hall.2.2.1
      rw [ha, Option.bind_some]
      split
      · exact ⟨_, [':'], rfl, rfl, List.all_eq_true.mp (by decide), hd.maxLength_pos⟩
      · exact ⟨_, [], rfl, rfl, by simp, Nat.zero_le _⟩

/-- The accesses for one key are within the arrays exactly if the correction of the typo that it completes fits. -/
theorem accesses_inBounds (hd : Generated autocorrections d) {typed : List Char} (h : BufferInv d typed s)
    (ev : KeyEvent) : ((∀ a ∈ accesses d ev s, a.InBounds d.maxLength) ↔
      ∀ typoBuffer ∈ bufferWith d ev s, ∀ e ∈ autocorrections, e.typo.map typoCode <:+ typoBuffer →
        Fits d.maxLength typoBuffer e) ∧
    ((∀ a ∈ accesses d ev s, a.InBounds d.maxLength) →
      ∃ p typed', processEvent d ev s = some p ∧ BufferInv d typed' p.state) := by
  rw [accesses, bufferWith]
  cases hkey : typedKeycode ev s with
  | none =>
    obtain ⟨p, hp, n, hn⟩ := @typedKeycode_none d ev s hkey
    exact ⟨⟨fun _ typoBuffer hbuffer => (nomatch hbuffer), fun _ a ha => (nomatch ha)⟩,
      fun _ => ⟨p, _, hp, h.take hn⟩⟩
  | some typedKey =>
    obtain ⟨keycode, s'⟩ := typedKey
    obtain ⟨hprocess, ⟨c, hc, rfl⟩, n, hn⟩ := @typedKeycode_some d ev s s' keycode hkey
    obtain ⟨hiff, hnext⟩ := typeAccesses_inBounds hd (h.take hn) hc
    rw [hprocess]
    refine ⟨hiff.trans ⟨fun hfit typoBuffer hbuffer => ?_, fun hfit => hfit _ rfl⟩, hnext⟩
    cases hbuffer
    exact hfit

theorem staysInBounds_iff (hd : Generated autocorrections d) : ∀ {events : List KeyEvent} {typed : List Char}
    {s : AutocorrectState}, BufferInv d typed s →
      (StaysInBounds d events s ↔ TyposFit autocorrections d events s) := by
  intro events
  induction events with
  | nil => exact fun _ => Iff.rfl
  | cons ev events ih =>
    intro typed s h
    obtain ⟨hiff, hnext⟩ := accesses_inBounds hd h ev
    rw [StaysInBounds, TyposFit, hiff]
    refine and_congr_right fun hfit => ?_
    obtain ⟨p, typed', hp, h'⟩ := hnext (hiff.mpr hfit)
    rw [hp]
    exact ih h'

theorem bufferInv_initial (hd : Generated autocorrections d) (enabled : Bool) :
    BufferInv d [':'] ⟨enabled, [KC_SPC]⟩ :=
  ⟨rfl, List.all_eq_true.mp (by decide), hd.maxLength_pos⟩

/-- Whatever is typed, the accesses stay within the arrays exactly if each correction that comes up fits. -/
theorem stays_in_bounds {lines : List Autocorrection} (hfile : parseFile lines = some autocorrections)
    (hdata : generateAutocorrectData lines = some d) (enabled : Bool) (events : List KeyEvent) :
    StaysInBounds d events ⟨enabled, [KC_SPC]⟩ ↔ TyposFit autocorrections d events ⟨enabled, [KC_SPC]⟩ :=
  staysInBounds_iff (generated hfile hdata) (bufferInv_initial (generated hfile hdata) enabled)

def pressOf (c : Char) : KeyEvent := ⟨typoCode c, ⟨true, 0⟩, 0⟩

theorem stays_in_bounds_twoTypos :
    StaysInBounds twoTyposData ([':', 't', 'h', 'i', 'e', 'r', 'f', 'i', 't', 'l', 'e', 'r'].map pressOf)
      ⟨true, [KC_SPC]⟩ :=
  (@stays_in_bounds twoTypos twoTyposData twoTypos (by decide +kernel) (by decide +kernel) true _).mpr
    (by decide +kernel)

def innerBreak : List Autocorrection := [⟨['a', 'b', ':', 'c', 'd'], ['x', 'y']⟩]

def innerBreakData : AutocorrectData := ⟨5, 5, [7, 6, 44, 5, 4, 0, 132, 120, 121, 0]⟩

/-- The typed word is `cd`, and the correction is put three bytes in front of the array. -/
theorem inner_break_out_of_bounds :
    ¬ ∀ (lines autocorrections : List Autocorrection) (d : AutocorrectData) (enabled : Bool)
      (events : List KeyEvent), parseFile lines = some autocorrections → generateAutocorrectData lines = some d →
      StaysInBounds d events ⟨enabled, [KC_SPC]⟩ := by
  intro h
  have hstays := h innerBreak innerBreak innerBreakData true (['a', 'b', ':', 'c', 'd'].map pressOf)
    (by decide +kernel) (by decide +kernel)
  revert hstays
  decide +kernel

end Autocorrect
end VialQmk
