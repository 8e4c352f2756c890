import VialQmk.Hid.Vial

/-!
# Hid.SettingsSync

The settings structure `QS` against its image in the EEPROM, and what a host reads back of a setting
it has written.

* `save_inSync` and `load_inSync`: the two loops copy all 36 bytes, one way and the other.
* `settings_consistent`: behind the initialization at start-up, over every sequence of calls, `QS` is
  the image, and a successful set changes what one id reads and nothing else.
-/

namespace VialQmk
namespace Hid

open Lib Eeprom

def InSync (d : Dims) (s : SettingsState) : Prop :=
  ∀ i, i < vialQmkSettingsSize → s.eeprom (d.vialQmkSettingsEepromAddr + i) = s.qs i

section Loops

variable {d : Dims} {s : SettingsState} {i n : Nat}

theorem toUInt16_of_lt (h : i < vialQmkSettingsSize) : i.toUInt16.toNat = i := by
  have hmod : i.toUInt16.toNat = i % 65536 := UInt16.toNat_ofNat'
  rw [hmod]
  exact Nat.mod_eq_of_lt (Nat.lt_trans h (by decide))

theorem getQmkSettings_of_lt (h : i < vialQmkSettingsSize) (m : EepromMem) :
    dynamicKeymapGetQmkSettings d m i.toUInt16 = m (d.vialQmkSettingsEepromAddr + i) := by
  rw [dynamicKeymapGetQmkSettings, toUInt16_of_lt h, if_neg (Nat.not_le.mpr h)]

theorem setQmkSettings_of_lt (h : i < vialQmkSettingsSize) (m : EepromMem) (v : UInt8) :
    dynamicKeymapSetQmkSettings d m i.toUInt16 v =
      Function.update m (d.vialQmkSettingsEepromAddr + i) v := by
  rw [dynamicKeymapSetQmkSettings, toUInt16_of_lt h, if_neg (Nat.not_le.mpr h), eepromUpdateByte]

theorem loadN_apply (hn : n ≤ vialQmkSettingsSize) (i : Nat) :
    eepromSettingsLoadN d s n i =
      if i < n then s.eeprom (d.vialQmkSettingsEepromAddr + i) else s.qs i := by
  induction n with
  | zero => rw [eepromSettingsLoadN_zero, if_neg (Nat.not_lt_zero i)]
  | succ n ih =>
    have hlt : n < vialQmkSettingsSize := hn
    rw [eepromSettingsLoadN_succ, getQmkSettings_of_lt hlt]
    by_cases hi : i = n
    · subst hi
      rw [Function.update_self, if_pos (Nat.lt_succ_self i)]
    · rw [Function.update_of_ne hi, ih (Nat.le_of_lt hlt)]
      have hiff : i < n ↔ i < n + 1 := by omega
      simp only [hiff]

theorem saveN_apply (hn : n ≤ vialQmkSettingsSize) (hi : i < n) :
    eepromSettingsSaveN d s n (d.vialQmkSettingsEepromAddr + i) = s.qs i := by
  induction n with
  | zero => cases hi
  | succ n ih =>
    have hlt : n < vialQmkSettingsSize := hn
    simp only [eepromSettingsSaveN, getQmkSettings_of_lt hlt, setQmkSettings_of_lt hlt]
    rcases Nat.lt_succ_iff_lt_or_eq.mp hi with hlast | rfl
    · have hne : d.vialQmkSettingsEepromAddr + i ≠ d.vialQmkSettingsEepromAddr + n := by omega
      split
      · rw [Function.update_of_ne hne, ih (Nat.le_of_lt hlt) hlast]
      · exact ih (Nat.le_of_lt hlt) hlast
    · split
      · rw [Function.update_self]
      · rename_i hsame
        exact Decidable.not_not.mp hsame

theorem load_inSync : InSync d (eepromSettingsLoad d s) := by
  intro i hi
  simp only [eepromSettingsLoad, loadN_apply (Nat.le_refl _), if_pos hi]

theorem save_inSync : InSync d (eepromSettingsSave d s) := by
  intro i hi
  simp only [eepromSettingsSave, saveN_apply (Nat.le_refl _) hi]

theorem load_of_inSync (h : InSync d s) (hi : i < vialQmkSettingsSize) :
    (eepromSettingsLoad d s).qs i = s.qs i := by
  simp only [eepromSettingsLoad, loadN_apply (Nat.le_refl _), if_pos hi, h i hi]

theorem updateKeymap_inSync (g : Geometry) (h : InSync g.toDims s) :
    InSync g.toDims (eeconfigUpdateKeymap s) := by
  intro i hi
  have hbase := g.eeconfigKeymap_lt
  have haddr : g.dynamicKeymapEepromAddr ≤ g.vialQmkSettingsEepromAddr := by
    rw [Dims.vialQmkSettingsEepromAddr, Dims.vialEncodersEepromAddr]
    omega
  refine Eq.trans ?_ (h i hi)
  exact Mem.writeBlock_of_ge (by simp only [List.length_cons, List.length_nil]; omega)

end Loops

namespace SettingKind

def size : SettingKind → Nat
  | .field _ size => size
  | .magic => 4

/-- What remains of the bytes a host writes: the keymap configuration keeps its ten known flags. -/
def stored : SettingKind → List UInt8 → List UInt8
  | .field _ _, bytes => bytes
  | .magic, bytes => [bytes.getD 0 0, bytes.getD 1 0 &&& 3, 0, 0]

def Disjoint : SettingKind → SettingKind → Prop
  | .field o n, .field o' n' => o + n ≤ o' ∨ o' + n' ≤ o
  | .field _ _, .magic => True
  | .magic, .field _ _ => True
  | .magic, .magic => False

instance : DecidableRel Disjoint
  | .field o n, .field o' n' => inferInstanceAs (Decidable (o + n ≤ o' ∨ o' + n' ≤ o))
  | .field _ _, .magic => isTrue trivial
  | .magic, .field _ _ => isTrue trivial
  | .magic, .magic => isFalse id

def Fits : SettingKind → Prop
  | .field o n => o + n ≤ vialQmkSettingsSize
  | .magic => True

instance : DecidablePred Fits
  | .field o n => inferInstanceAs (Decidable (o + n ≤ vialQmkSettingsSize))
  | .magic => isTrue trivial

end SettingKind

section Table

variable {c : SettingDefaults} {qsid : UInt16} {p q : QmkSettingsProto}

theorem protos_fits : ∀ p ∈ protos c, p.kind.Fits := by
  unfold protos
  cases c.mousekey <;> decide

theorem protos_disjoint :
    ∀ p ∈ protos c, ∀ q ∈ protos c, p.qsid ≠ q.qsid → p.kind.Disjoint q.kind := by
  unfold protos
  cases c.mousekey <;> decide

theorem findSetting_mem (h : findSetting c qsid = some p) : p ∈ protos c ∧ p.qsid = qsid :=
  ⟨List.mem_of_find?_eq_some h, of_decide_eq_true (List.find?_some h :)⟩

def settingBytes (s : SettingsState) : SettingKind → List UInt8
  | .field offset size => s.qs.readBlock offset size
  | .magic => [loByte (s.keymapConfig &&& magicMask), hiByte (s.keymapConfig &&& magicMask), 0, 0]

theorem qmkSettingsGet_eq (h : findSetting c qsid = some p) (s : SettingsState) (ram : Ram)
    (buffer maxsz : Nat) :
    qmkSettingsGet c s qsid ram buffer maxsz =
      if maxsz < p.kind.size then (-1, ram)
      else (0, ram.writeBlock buffer (settingBytes s p.kind)) := by
  rw [qmkSettingsGet, h]
  cases hk : p.kind with
  | field offset size =>
    simp only [hk, SettingKind.size, settingBytes]
    rfl
  | magic =>
    simp only [hk, SettingKind.size, settingBytes]
    rfl

theorem qmkSettingsGet_congr {s s' : SettingsState}
    (h : ∀ p, findSetting c qsid = some p → settingBytes s' p.kind = settingBytes s p.kind)
    (ram : Ram) (buffer maxsz : Nat) :
    qmkSettingsGet c s' qsid ram buffer maxsz = qmkSettingsGet c s qsid ram buffer maxsz := by
  cases hp : findSetting c qsid with
  | none => rw [qmkSettingsGet, qmkSettingsGet, hp]
  | some p => rw [qmkSettingsGet_eq hp, qmkSettingsGet_eq hp, h p hp]

end Table

section Set

variable {c : SettingDefaults} {d : Dims} {s : SettingsState} {qsid : UInt16}
  {p q : QmkSettingsProto}

def magicWord (word flags : UInt16) : UInt16 := (word &&& ~~~magicMask) ||| (flags &&& magicMask)

theorem magicWord_and (word flags : UInt16) : magicWord word flags &&& magicMask = flags &&& magicMask := by
  apply UInt16.toBitVec_inj.mp
  apply BitVec.eq_of_getLsbD_eq
  intro i _
  simp only [magicWord, UInt16.toBitVec_and, UInt16.toBitVec_or, UInt16.toBitVec_not,
    BitVec.getLsbD_and, BitVec.getLsbD_or, BitVec.getLsbD_not]
  cases magicMask.toBitVec.getLsbD i <;> simp

theorem loByte_and_magicMask (k : UInt16) : loByte (k &&& magicMask) = loByte k := by
  apply UInt8.toNat_inj.mp
  have h : (k &&& magicMask).toNat = k.toNat % 1024 := by
    rw [UInt16.toNat_and]
    exact Nat.and_two_pow_sub_one_eq_mod k.toNat 10
  rw [loByte_toNat, loByte_toNat, h]
  omega

theorem hiByte_and_magicMask (k : UInt16) : hiByte (k &&& magicMask) = hiByte k &&& 3 := by
  apply UInt8.toNat_inj.mp
  have h : (k &&& magicMask).toNat = k.toNat % 1024 := by
    rw [UInt16.toNat_and]
    exact Nat.and_two_pow_sub_one_eq_mod k.toNat 10
  have h' : (hiByte k &&& 3).toNat = (hiByte k).toNat % 4 := by
    rw [UInt8.toNat_and]
    exact Nat.and_two_pow_sub_one_eq_mod (hiByte k).toNat 2
  rw [hiByte_toNat, h, h', hiByte_toNat]
  omega

theorem qmkSettingsSet_short (h : findSetting c qsid = some p) {maxsz : Nat} (hsz : maxsz < p.kind.size)
    (ram : Ram) (setting : Nat) : qmkSettingsSet d c s qsid ram setting maxsz = (-1, s) := by
  rw [qmkSettingsSet, h]
  cases hk : p.kind with
  | field offset size =>
    rw [hk] at hsz
    simp only [hk]
    exact if_pos hsz
  | magic =>
    rw [hk] at hsz
    simp only [hk]
    exact if_pos hsz

/-- The bytes behind a set that goes through: the setting's own, and those of a disjoint one. -/
theorem qmkSettingsSet_bytes (h : findSetting c qsid = some p) {maxsz : Nat}
    (hsz : ¬ maxsz < p.kind.size) (ram : Ram) (setting : Nat) :
    (qmkSettingsSet d c s qsid ram setting maxsz).1 = 0 ∧
      settingBytes (qmkSettingsSet d c s qsid ram setting maxsz).2 p.kind =
        p.kind.stored (ram.readBlock setting p.kind.size) ∧
      ∀ k, p.kind.Disjoint k →
        settingBytes (qmkSettingsSet d c s qsid ram setting maxsz).2 k = settingBytes s k := by
  rw [qmkSettingsSet, h]
  cases hk : p.kind with
  | field offset size =>
    rw [hk] at hsz
    have hlen : (ram.readBlock setting size).length = size := Mem.readBlock_length ..
    simp only [hk, if_neg (show ¬ size > maxsz from hsz)]
    refine ⟨trivial, ?_, fun k hdis => ?_⟩
    · have hread := s.qs.readBlock_writeBlock offset (ram.readBlock setting size)
      rw [hlen] at hread
      exact hread
    · cases k with
      | field o n =>
        refine Mem.readBlock_writeBlock_of_disjoint ?_
        rw [hlen]
        exact hdis.symm
      | magic => rfl
  | magic =>
    rw [hk] at hsz
    simp only [hk, if_neg (show ¬ maxsz < 4 from hsz)]
    refine ⟨trivial, ?_, fun k hdis => ?_⟩
    · have hword := magicWord_and s.keymapConfig (beWord (ram (setting + 1)) (ram setting))
      simp only [settingBytes, SettingKind.stored, SettingKind.size, eeconfigUpdateKeymap]
      rw [← magicWord, hword, loByte_and_magicMask, hiByte_and_magicMask, loByte_beWord,
        hiByte_beWord]
      rfl
    · cases k with
      | field o n => rfl
      | magic => exact absurd hdis id

theorem qmkSettingsSet_unknown (h : findSetting c qsid = none) (ram : Ram) (setting maxsz : Nat) :
    qmkSettingsSet d c s qsid ram setting maxsz = (-1, s) := by
  rw [qmkSettingsSet, h]

end Set

/-- A call of the settings code; a set takes its bytes from `ram`. -/
inductive SettingsCall where
  | init
  | reset
  | set (qsid : UInt16) (ram : Ram) (setting maxsz : Nat)

def SettingsCall.exec (d : Dims) (c : SettingDefaults) (s : SettingsState) : SettingsCall → SettingsState
  | .init => qmkSettingsInit d s
  | .reset => qmkSettingsReset d c s
  | .set qsid ram setting maxsz => (qmkSettingsSet d c s qsid ram setting maxsz).2

def runSettings (d : Dims) (c : SettingDefaults) (s : SettingsState) (calls : List SettingsCall) :
    SettingsState :=
  calls.foldl (SettingsCall.exec d c) s

section Runs

variable {c : SettingDefaults} {g : Geometry} {s : SettingsState} {qsid : UInt16}

theorem set_inSync (h : InSync g.toDims s) (qsid : UInt16) (ram : Ram) (setting maxsz : Nat) :
    InSync g.toDims (qmkSettingsSet g.toDims c s qsid ram setting maxsz).2 := by
  unfold qmkSettingsSet
  split
  · exact h
  · split
    · split
      · exact h
      · exact save_inSync
    · split
      · exact h
      · exact updateKeymap_inSync g h

theorem exec_inSync (h : InSync g.toDims s) (call : SettingsCall) :
    InSync g.toDims (call.exec g.toDims c s) := by
  cases call with
  | init => exact load_inSync
  | reset => exact load_inSync
  | set qsid ram setting maxsz => exact set_inSync h qsid ram setting maxsz

theorem runSettings_inSync (calls : List SettingsCall) :
    ∀ {s : SettingsState}, InSync g.toDims s → InSync g.toDims (runSettings g.toDims c s calls) := by
  induction calls with
  | nil => exact fun h => h
  | cons call calls ih => exact fun h => ih (exec_inSync h call)

variable {p : QmkSettingsProto}

theorem settingBytes_init (h : InSync g.toDims s) (hp : p ∈ protos c) :
    settingBytes (qmkSettingsInit g.toDims s) p.kind = settingBytes s p.kind := by
  have hfits := protos_fits p hp
  cases hk : p.kind with
  | field offset size =>
    rw [hk] at hfits
    exact Mem.readBlock_congr fun i hi => load_of_inSync h (Nat.lt_of_lt_of_le (by omega) hfits)
  | magic => rfl

/-- What a host reads of the settings behind a set of `qsid`, compared with the state in front. -/
def Answers (c : SettingDefaults) (qsid : UInt16) (p : QmkSettingsProto) (bytes : List UInt8)
    (s s' : SettingsState) : Prop :=
  (∀ ram buffer maxsz, qmkSettingsGet c s' qsid ram buffer maxsz =
    if maxsz < p.kind.size then (-1, ram) else (0, ram.writeBlock buffer (p.kind.stored bytes))) ∧
  ∀ q, q ≠ qsid → ∀ ram buffer maxsz,
    qmkSettingsGet c s' q ram buffer maxsz = qmkSettingsGet c s q ram buffer maxsz

theorem set_answers (h : findSetting c qsid = some p) {maxsz : Nat} (hsz : ¬ maxsz < p.kind.size) (ram : Ram)
    (setting : Nat) : Answers c qsid p (ram.readBlock setting p.kind.size) s
      (qmkSettingsSet g.toDims c s qsid ram setting maxsz).2 := by
  obtain ⟨-, hbytes, hothers⟩ := qmkSettingsSet_bytes (d := g.toDims) (s := s) h hsz ram setting
  refine ⟨fun ram' buffer size => ?_, fun q hq ram' buffer size => ?_⟩
  · rw [qmkSettingsGet_eq h, hbytes]
  · refine qmkSettingsGet_congr (fun p' hp' => hothers _ ?_) _ _ _
    obtain ⟨hmem, hid⟩ := findSetting_mem h
    obtain ⟨hmem', hid'⟩ := findSetting_mem hp'
    exact protos_disjoint p hmem p' hmem' fun heq => hq (by rw [← hid', ← heq, hid])

theorem Answers.init {s' : SettingsState} {bytes : List UInt8} (h : Answers c qsid p bytes s s')
    (hs : InSync g.toDims s') : Answers c qsid p bytes s (qmkSettingsInit g.toDims s') := by
  have hsame : ∀ q ram buffer maxsz, qmkSettingsGet c (qmkSettingsInit g.toDims s') q ram buffer maxsz =
      qmkSettingsGet c s' q ram buffer maxsz := fun q ram buffer maxsz =>
    qmkSettingsGet_congr (fun p hp => settingBytes_init hs (findSetting_mem hp).1) ram buffer maxsz
  refine ⟨fun ram buffer maxsz => ?_, fun q hq ram buffer maxsz => ?_⟩
  · rw [hsame, h.1]
  · rw [hsame, h.2 q hq]

/-- Behind the initialization at start-up `QS` is the image in the EEPROM, whatever is called. A set that
returns 0 is read back, up to the unknown flags of the keymap configuration, also behind another
initialization, and changes no other setting; one that fails changes nothing. -/
theorem settings_consistent (g : Geometry) (c : SettingDefaults) (boot : SettingsState)
    (calls : List SettingsCall) :
    let s := runSettings g.toDims c (qmkSettingsInit g.toDims boot) calls
    InSync g.toDims s ∧
    ∀ qsid ram setting maxsz,
      let r := qmkSettingsSet g.toDims c s qsid ram setting maxsz
      (r.1 = 0 ∧ ∃ p, findSetting c qsid = some p ∧
        Answers c qsid p (ram.readBlock setting p.kind.size) s r.2 ∧
        Answers c qsid p (ram.readBlock setting p.kind.size) s (qmkSettingsInit g.toDims r.2)) ∨
      (r.1 ≠ 0 ∧ r.2 = s) := by
  intro s
  have hs : InSync g.toDims s := runSettings_inSync calls load_inSync
  refine ⟨hs, fun qsid ram setting maxsz => ?_⟩
  cases h : findSetting c qsid with
  | none =>
    rw [qmkSettingsSet_unknown h]
    exact .inr ⟨(by decide : (-1 : Int) ≠ 0), rfl⟩
  | some p =>
    by_cases hsz : maxsz < p.kind.size
    · rw [qmkSettingsSet_short h hsz]
      exact .inr ⟨(by decide : (-1 : Int) ≠ 0), rfl⟩
    · have hanswers := set_answers (g := g) (s := s) h hsz ram setting
      exact .inl ⟨(qmkSettingsSet_bytes h hsz ram setting).1, p, rfl, hanswers,
        hanswers.init (set_inSync hs qsid ram setting maxsz)⟩

end Runs

/-- All bits set in setting 21: the call returns 0, and only the ten known flags read back. Before the
initialization at start-up a set of this setting leaves `QS` out of step with the image. -/
theorem unknown_flags_dropped :
    let c := Firmware.onePad.settings
    let g := Firmware.onePad.geometry
    let boot : SettingsState := ⟨fun _ => 0xFF, fun _ => 0, 0⟩
    let bytes : Ram := fun _ => 0xFF
    let r := qmkSettingsSet g.toDims c (qmkSettingsInit g.toDims boot) 21 bytes 0 4
    (r.1 = 0 ∧ (qmkSettingsGet c r.2 21 (fun _ => 0) 0 4).1 = 0 ∧
      (qmkSettingsGet c r.2 21 (fun _ => 0) 0 4).2.readBlock 0 4 ≠ bytes.readBlock 0 4) ∧
    ¬ InSync g.toDims (runSettings g.toDims c boot [.set 21 bytes 0 4]) := by
  refine ⟨by decide +kernel, fun h => ?_⟩
  have hbyte := h 0 (by decide)
  revert hbyte
  decide +kernel

end Hid
end VialQmk
