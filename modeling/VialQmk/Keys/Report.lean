import VialQmk.Lib.Bits
import VialQmk.Lib.Slots
import Mathlib.Data.Finset.Basic

/-!
# Keys.Report

The two keyboard reports of `report.c`: six keys in an array with holes, and a bit for each keycode below 240.

* `addKeyToReport`, `delKeyFromReport`, `clearKeysFromReport`: on the report that the protocol selects.
* `Agree`: either report is the set of the keys that are held.
* `reports_agree`: so they are after any operations that never hold more than six keys at once.
-/

namespace VialQmk
namespace Keys

open Lib

def keyboardReportKeys : Nat := 6

def nkroReportBits : Nat := 30

structure ReportKeyboard where
  keys : List UInt8
  size : keys.length = keyboardReportKeys

structure ReportNkro where
  bits : List (BitVec 8)
  size : bits.length = nkroReportBits

structure Reports where
  keyboard : ReportKeyboard
  nkro : ReportNkro

def addScan (code : UInt8) : List UInt8 → Nat → Int → Nat × Int
  | [], i, empty => (i, empty)
  | key :: keys, i, empty =>
    if key = code then (i, empty)
    else addScan code keys (i + 1) (if empty = -1 ∧ key = 0 then i else empty)

def addKeyByte (report : ReportKeyboard) (code : UInt8) : ReportKeyboard :=
  let scan := addScan code report.keys 0 (-1)
  if scan.1 = keyboardReportKeys ∧ scan.2 ≠ -1 then
    { keys := report.keys.set scan.2.toNat code
      size := by rw [List.length_set, report.size] }
  else report

def delKeyByte (report : ReportKeyboard) (code : UInt8) : ReportKeyboard where
  keys := report.keys.map fun key => if key = code then 0 else key
  size := by rw [List.length_map, report.size]

def addKeyBit (report : ReportNkro) (code : UInt8) : ReportNkro :=
  if code.toNat >>> 3 < nkroReportBits then
    { bits := report.bits.modify (code.toNat >>> 3) (· ||| 1#8 <<< (code.toNat &&& 7))
      size := by rw [List.length_modify, report.size] }
  else report

def delKeyBit (report : ReportNkro) (code : UInt8) : ReportNkro :=
  if code.toNat >>> 3 < nkroReportBits then
    { bits := report.bits.modify (code.toNat >>> 3) (· &&& ~~~(1#8 <<< (code.toNat &&& 7)))
      size := by rw [List.length_modify, report.size] }
  else report

/-- `nkro` says that the protocol is the report protocol and `keymap_config.nkro` is set. -/
def addKeyToReport (nkro : Bool) (r : Reports) (key : UInt8) : Reports :=
  if nkro then { r with nkro := addKeyBit r.nkro key } else { r with keyboard := addKeyByte r.keyboard key }

def delKeyFromReport (nkro : Bool) (r : Reports) (key : UInt8) : Reports :=
  if nkro then { r with nkro := delKeyBit r.nkro key } else { r with keyboard := delKeyByte r.keyboard key }

def ReportKeyboard.zero : ReportKeyboard := ⟨List.replicate keyboardReportKeys 0, List.length_replicate⟩

def ReportNkro.zero : ReportNkro := ⟨List.replicate nkroReportBits 0, List.length_replicate⟩

def clearKeysFromReport (nkro : Bool) (r : Reports) : Reports :=
  if nkro then { r with nkro := .zero } else { r with keyboard := .zero }

def hasAnykey (nkro : Bool) (r : Reports) : Nat :=
  if nkro then r.nkro.bits.countP (· ≠ 0) else r.keyboard.keys.countP (· ≠ 0)

def isKeyPressed (nkro : Bool) (r : Reports) (key : UInt8) : Bool :=
  if key = 0 then false
  else if nkro then
    if key.toNat >>> 3 < nkroReportBits then
      r.nkro.bits.getD (key.toNat >>> 3) 0 &&& 1#8 <<< (key.toNat &&& 7) ≠ 0
    else false
  else r.keyboard.keys.any (· = key)

inductive KeyOp where
  | addKey (code : UInt8)
  | delKey (code : UInt8)
  | clearKeys

/-- The keycode is one of those that the bitmap has, and not `KC_NO`. -/
def KeyOp.Reportable : KeyOp → Prop
  | .addKey code => code ≠ 0 ∧ code.toNat < 8 * nkroReportBits
  | .delKey code => code ≠ 0 ∧ code.toNat < 8 * nkroReportBits
  | .clearKeys => True

instance : DecidablePred KeyOp.Reportable
  | .addKey _ => inferInstanceAs (Decidable (_ ∧ _))
  | .delKey _ => inferInstanceAs (Decidable (_ ∧ _))
  | .clearKeys => inferInstanceAs (Decidable True)

def KeyOp.apply (nkro : Bool) (r : Reports) : KeyOp → Reports
  | .addKey code => addKeyToReport nkro r code
  | .delKey code => delKeyFromReport nkro r code
  | .clearKeys => clearKeysFromReport nkro r

def Reports.zero : Reports := ⟨.zero, .zero⟩

def runKeys (nkro : Bool) (ops : List KeyOp) : Reports := ops.foldl (KeyOp.apply nkro) .zero

def KeyOp.hold (s : Finset UInt8) : KeyOp → Finset UInt8
  | .addKey code => insert code s
  | .delKey code => s.erase code
  | .clearKeys => ∅

def held (ops : List KeyOp) : Finset UInt8 := ops.foldl KeyOp.hold ∅

theorem addScan_of_mem {code : UInt8} : ∀ {keys : List UInt8} (i : Nat) (empty : Int), code ∈ keys →
    (addScan code keys i empty).1 < i + keys.length := by
  intro keys
  induction keys with
  | nil => exact fun _ _ h => absurd h List.not_mem_nil
  | cons key keys ih =>
    intro i empty h
    rw [addScan, List.length_cons]
    split
    · exact Nat.lt_add_of_pos_right (Nat.succ_pos _)
    · rename_i hne
      have hrest := ih (i + 1) (if empty = -1 ∧ key = 0 then i else empty)
        ((List.mem_cons.mp h).resolve_left fun heq => hne heq.symm)
      omega

theorem addScan_of_not_mem {code : UInt8} : ∀ {keys : List UInt8} (i : Nat) (empty : Int), code ∉ keys →
    (addScan code keys i empty).1 = i + keys.length ∧ (empty ≠ -1 → (addScan code keys i empty).2 = empty) := by
  intro keys
  induction keys with
  | nil => exact fun _ _ _ => ⟨rfl, fun _ => rfl⟩
  | cons key keys ih =>
    intro i empty h
    obtain ⟨hne, hrest⟩ := List.ne_and_not_mem_of_not_mem_cons h
    rw [addScan, if_neg (Ne.symm hne), List.length_cons]
    obtain ⟨hi, hempty⟩ := ih (i + 1) (if empty = -1 ∧ key = 0 then i else empty) hrest
    refine ⟨by rw [hi]; omega, fun hkept => ?_⟩
    rw [if_neg fun h => hkept h.1] at hempty ⊢
    exact hempty hkept

theorem addScan_hole {code : UInt8} : ∀ {keys : List UInt8} {i : Nat}, code ∉ keys → 0 ∈ keys →
    ∃ l r, keys = l ++ 0 :: r ∧ (addScan code keys i (-1)).2 = (i + l.length : Nat) := by
  intro keys
  induction keys with
  | nil => exact fun _ h => absurd h List.not_mem_nil
  | cons key keys ih =>
    intro i hnot hzero
    obtain ⟨hne, hrest⟩ := List.ne_and_not_mem_of_not_mem_cons hnot
    rw [addScan, if_neg (Ne.symm hne)]
    by_cases hkey : key = 0
    · subst hkey
      refine ⟨[], keys, rfl, ?_⟩
      rw [if_pos ⟨rfl, rfl⟩, (addScan_of_not_mem _ _ hrest).2 (by omega)]
      rfl
    · obtain ⟨l, r, rfl, hempty⟩ := ih (i := i + 1) hrest ((List.mem_cons.mp hzero).resolve_left fun h => hkey h.symm)
      refine ⟨key :: l, r, rfl, ?_⟩
      rw [if_neg fun h => hkey h.2, hempty, List.length_cons]
      omega

theorem addKeyByte_of_mem {report : ReportKeyboard} {code : UInt8} (h : code ∈ report.keys) :
    addKeyByte report code = report := by
  have hlt := addScan_of_mem 0 (-1) h
  rw [report.size] at hlt
  exact if_neg fun hfull => by omega

theorem addKeyByte_of_hole {report : ReportKeyboard} {code : UInt8} (h : code ∉ report.keys) (hzero : 0 ∈ report.keys) :
    ∃ l r, report.keys = l ++ 0 :: r ∧ (addKeyByte report code).keys = l ++ code :: r := by
  obtain ⟨l, r, hkeys, hempty⟩ := addScan_hole (i := 0) h hzero
  have hi := (addScan_of_not_mem 0 (-1) h).1
  rw [report.size, Nat.zero_add] at hi
  refine ⟨l, r, hkeys, ?_⟩
  rw [addKeyByte, if_pos ⟨hi, by rw [hempty]; omega⟩]
  show report.keys.set _ code = _
  rw [hempty, hkeys, Nat.zero_add, Int.toNat_natCast, List.set_append_right _ _ (Nat.le_refl _), Nat.sub_self,
    List.set_cons_zero]

def ReportNkro.HasBit (report : ReportNkro) (code : UInt8) : Prop :=
  (report.bits.getD (code.toNat >>> 3) 0).getLsbD (code.toNat &&& 7) = true

theorem code_eq_iff {c d : UInt8} : c = d ↔ c.toNat >>> 3 = d.toNat >>> 3 ∧ c.toNat &&& 7 = d.toNat &&& 7 := by
  have hand (n : Nat) : n &&& 7 = n % 8 := Nat.and_two_pow_sub_one_eq_mod n 3
  rw [← UInt8.toNat_inj, Nat.shiftRight_eq_div_pow, Nat.shiftRight_eq_div_pow, hand, hand]
  omega

theorem bit_lt (c : UInt8) : c.toNat &&& 7 < 8 := Nat.lt_succ_of_le Nat.and_le_right

theorem byte_lt {c : UInt8} (h : c.toNat < 8 * nkroReportBits) : c.toNat >>> 3 < nkroReportBits := by
  rw [Nat.shiftRight_eq_div_pow]
  omega

theorem getD_modify (bits : List (BitVec 8)) (f : BitVec 8 → BitVec 8) {i j : Nat} (hi : i < bits.length) :
    (bits.modify i f).getD j 0 = if i = j then f (bits.getD j 0) else bits.getD j 0 := by
  rw [List.getD_eq_getElem?_getD, List.getD_eq_getElem?_getD, List.getElem?_modify]
  split
  · rename_i heq
    subst heq
    rw [List.getElem?_eq_getElem hi]
    rfl
  · cases bits[j]? <;> rfl

variable {report : ReportNkro} {code c : UInt8}

theorem addKeyBit_hasBit (h : code.toNat < 8 * nkroReportBits) :
    (addKeyBit report code).HasBit c ↔ c = code ∨ report.HasBit c := by
  have hbyte := byte_lt h
  rw [addKeyBit, if_pos hbyte, ReportNkro.HasBit, ReportNkro.HasBit, getD_modify _ _ (report.size.symm ▸ hbyte),
    code_eq_iff]
  by_cases heq : code.toNat >>> 3 = c.toNat >>> 3
  · rw [if_pos heq, getLsbD_or_one_shiftLeft]
    constructor
    · rintro (hset | ⟨hbit, -⟩)
      · exact .inr hset
      · exact .inl ⟨heq.symm, hbit⟩
    · rintro (⟨-, hbit⟩ | hset)
      · exact .inr ⟨hbit, bit_lt code⟩
      · exact .inl hset
  · rw [if_neg heq]
    exact ⟨.inr, fun hset => hset.resolve_left fun hcode => heq hcode.1.symm⟩

theorem delKeyBit_hasBit (h : code.toNat < 8 * nkroReportBits) :
    (delKeyBit report code).HasBit c ↔ c ≠ code ∧ report.HasBit c := by
  have hbyte := byte_lt h
  rw [delKeyBit, if_pos hbyte, ReportNkro.HasBit, ReportNkro.HasBit, getD_modify _ _ (report.size.symm ▸ hbyte),
    Ne, code_eq_iff]
  by_cases heq : code.toNat >>> 3 = c.toNat >>> 3
  · rw [if_pos heq, getLsbD_and_not_one_shiftLeft]
    constructor
    · rintro ⟨hset, hbit⟩
      exact ⟨fun hcode => hbit hcode.2, hset⟩
    · rintro ⟨hne, hset⟩
      exact ⟨hset, fun hbit => hne ⟨heq.symm, hbit⟩⟩
  · rw [if_neg heq]
    exact ⟨fun hset => ⟨fun hcode => heq hcode.1.symm, hset⟩, And.right⟩

theorem zero_hasBit : ¬ ReportNkro.zero.HasBit c := by
  have hbyte : ReportNkro.zero.bits.getD (c.toNat >>> 3) 0 = 0 := by
    rw [List.getD_eq_getElem?_getD, ReportNkro.zero, List.getElem?_replicate]
    split <;> rfl
  rw [ReportNkro.HasBit, hbyte, BitVec.ofNat_eq_ofNat, BitVec.getLsbD_zero]
  exact Bool.false_ne_true

theorem countP_bits_eq_zero : report.bits.countP (· ≠ 0) = 0 ↔ ∀ c, ¬ report.HasBit c := by
  rw [List.countP_eq_zero]
  constructor
  · intro h c hset
    rw [ReportNkro.HasBit, List.getD_eq_getElem?_getD] at hset
    cases hget : report.bits[c.toNat >>> 3]? with
    | none =>
      rw [hget] at hset
      exact absurd hset (by simp)
    | some byte =>
      have hzero : byte = 0 := by simpa using h byte (List.mem_of_getElem? hget)
      rw [hget, hzero] at hset
      exact absurd hset (by simp)
  · intro h byte hbyte hne
    obtain ⟨i, hi, rfl⟩ := List.mem_iff_getElem.mp hbyte
    have hsize : i < 30 := Nat.lt_of_lt_of_eq hi report.size
    obtain ⟨j, hj, hset⟩ : ∃ j < 8, report.bits[i].getLsbD j = true := by
      by_contra hall
      refine absurd (of_decide_eq_true hne) (not_not_intro (BitVec.eq_of_getLsbD_eq fun j hj => ?_))
      rw [BitVec.ofNat_eq_ofNat, BitVec.getLsbD_zero]
      exact Bool.eq_false_iff.mpr fun hset => hall ⟨j, hj, hset⟩
    have hcode : (UInt8.ofNat (8 * i + j)).toNat = 8 * i + j := by
      rw [UInt8.toNat_ofNat']
      exact Nat.mod_eq_of_lt (by omega)
    have hand : (8 * i + j) &&& 7 = j := by
      rw [show (8 * i + j) &&& 7 = (8 * i + j) % 8 from Nat.and_two_pow_sub_one_eq_mod _ 3]
      omega
    apply h (UInt8.ofNat (8 * i + j))
    rw [ReportNkro.HasBit, hcode, hand, Nat.shiftRight_eq_div_pow, show (8 * i + j) / 2 ^ 3 = i by omega,
      List.getD_eq_getElem?_getD, List.getElem?_eq_getElem hi]
    exact hset

structure Agree (six : ReportKeyboard) (nkro : ReportNkro) (s : Finset UInt8) : Prop where
  slots : SlotsOf 0 six.keys s
  bits : ∀ c, nkro.HasBit c ↔ c ∈ s

variable {six : ReportKeyboard} {nkro : ReportNkro} {s : Finset UInt8}

theorem addKeyByte_slots (h : SlotsOf 0 six.keys s) (hcode : code ≠ 0)
    (hcard : (insert code s).card ≤ keyboardReportKeys) :
    SlotsOf 0 (addKeyByte six code).keys (insert code s) := by
  by_cases hmem : code ∈ s
  · rw [addKeyByte_of_mem ((h.mem_iff code).mp hmem).1, Finset.insert_eq_of_mem hmem]
    exact h
  · have hkeys : code ∉ six.keys := fun hin => hmem ((h.mem_iff code).mpr ⟨hin, hcode⟩)
    rw [Finset.card_insert_of_notMem hmem] at hcard
    obtain ⟨l, r, hsplit, hput⟩ := addKeyByte_of_hole hkeys (h.hole_mem (by rw [six.size]; omega))
    rw [hput]
    rw [hsplit] at h
    exact h.put hcode hmem

theorem Agree.apply {r₁ r₂ : Reports} (h : Agree r₁.keyboard r₂.nkro s) {op : KeyOp} (hop : op.Reportable)
    (hcard : (KeyOp.hold s op).card ≤ keyboardReportKeys) :
    Agree (op.apply false r₁).keyboard (op.apply true r₂).nkro (KeyOp.hold s op) := by
  cases op with
  | addKey code =>
    refine ⟨addKeyByte_slots h.slots hop.1 hcard, fun c => ?_⟩
    exact (addKeyBit_hasBit hop.2).trans (by rw [h.bits, KeyOp.hold, Finset.mem_insert])
  | delKey code =>
    refine ⟨h.slots.take code, fun c => ?_⟩
    exact (delKeyBit_hasBit hop.2).trans (by rw [h.bits, KeyOp.hold, Finset.mem_erase])
  | clearKeys => exact ⟨SlotsOf.holes keyboardReportKeys, fun c => iff_of_false zero_hasBit (Finset.notMem_empty c)⟩

theorem runKeys_agree (ops : List KeyOp) (hops : ∀ op ∈ ops, op.Reportable)
    (hheld : ∀ n, (held (ops.take n)).card ≤ keyboardReportKeys) :
    Agree (runKeys false ops).keyboard (runKeys true ops).nkro (held ops) := by
  induction ops using List.reverseRecOn with
  | nil => exact ⟨SlotsOf.holes keyboardReportKeys, fun c => iff_of_false zero_hasBit (Finset.notMem_empty c)⟩
  | append_singleton ops op ih =>
    have hlast := hheld (ops.length + 1)
    rw [List.take_of_length_le (by rw [List.length_append]; rfl)] at hlast
    rw [held, List.foldl_append] at hlast ⊢
    rw [runKeys, runKeys, List.foldl_append, List.foldl_append]
    refine (ih (fun op hmem => hops op (List.mem_append_left _ hmem)) fun n => ?_).apply
      (hops op (List.mem_append_right _ List.mem_cons_self)) hlast
    rcases Nat.le_total n ops.length with hn | hn
    · have hprefix := hheld n
      rwa [List.take_append_of_le_length hn] at hprefix
    · have hprefix := hheld ops.length
      rw [List.take_left] at hprefix
      rwa [List.take_of_length_le hn]

theorem Agree.isKeyPressed_six {r : Reports} (h : Agree r.keyboard nkro s) (key : UInt8) :
    isKeyPressed false r key = decide (key ∈ s) := by
  rw [isKeyPressed, Bool.eq_iff_iff, decide_eq_true_eq, h.slots.mem_iff]
  by_cases hkey : key = 0
  · rw [if_pos hkey]
    exact iff_of_false Bool.false_ne_true fun hmem => hmem.2 hkey
  · rw [if_neg hkey, if_neg Bool.false_ne_true, List.any_eq_true]
    constructor
    · rintro ⟨x, hx, heq⟩
      exact ⟨of_decide_eq_true heq ▸ hx, hkey⟩
    · exact fun hmem => ⟨key, hmem.1, decide_eq_true rfl⟩

theorem ReportNkro.HasBit.lt (h : report.HasBit c) : c.toNat >>> 3 < nkroReportBits := by
  by_contra hge
  rw [ReportNkro.HasBit, List.getD_eq_getElem?_getD,
    List.getElem?_eq_none (by rw [report.size]; exact Nat.le_of_not_lt hge)] at h
  exact absurd h (by simp)

theorem and_one_shiftLeft_ne_zero {x : BitVec 8} {i : Nat} (hi : i < 8) : x &&& 1#8 <<< i ≠ 0 ↔ x.getLsbD i = true := by
  have hbit (j : Nat) : (x &&& 1#8 <<< i).getLsbD j = true ↔ x.getLsbD j = true ∧ j = i := by
    have hone : (1#8 <<< i).getLsbD j = true ↔ j = i ∧ i < 8 := by
      have hor := getLsbD_or_one_shiftLeft (0#8) i j
      rw [BitVec.zero_or, BitVec.getLsbD_zero] at hor
      exact hor.trans (or_iff_right Bool.false_ne_true)
    rw [BitVec.getLsbD_and, Bool.and_eq_true, hone, and_iff_left hi]
  constructor
  · intro hne
    by_contra hclear
    refine hne (BitVec.eq_of_getLsbD_eq fun j _ => ?_)
    rw [BitVec.ofNat_eq_ofNat, BitVec.getLsbD_zero]
    exact Bool.eq_false_iff.mpr fun hset => hclear (((hbit j).mp hset).2 ▸ ((hbit j).mp hset).1)
  · intro hset hzero
    have hset' := (hbit i).mpr ⟨hset, rfl⟩
    rw [hzero] at hset'
    exact absurd hset' (by simp)

theorem Agree.isKeyPressed_nkro {r : Reports} (h : Agree six r.nkro s) (key : UInt8) :
    isKeyPressed true r key = decide (key ∈ s) := by
  rw [isKeyPressed, Bool.eq_iff_iff, decide_eq_true_eq, ← h.bits]
  by_cases hkey : key = 0
  · rw [if_pos hkey]
    exact iff_of_false Bool.false_ne_true fun hset => h.slots.hole_not_mem (hkey ▸ (h.bits key).mp hset)
  · rw [if_neg hkey, if_pos rfl]
    by_cases hbyte : key.toNat >>> 3 < nkroReportBits
    · rw [if_pos hbyte, decide_eq_true_eq]
      exact and_one_shiftLeft_ne_zero (bit_lt key)
    · rw [if_neg hbyte]
      exact iff_of_false Bool.false_ne_true fun hset => hbyte hset.lt

theorem Agree.hasAnykey_six {r : Reports} (h : Agree r.keyboard nkro s) : hasAnykey false r = 0 ↔ s = ∅ := by
  rw [hasAnykey, if_neg Bool.false_ne_true, List.countP_eq_length_filter, ← h.slots.card_eq, Finset.card_eq_zero]

theorem Agree.hasAnykey_nkro {r : Reports} (h : Agree six r.nkro s) : hasAnykey true r = 0 ↔ s = ∅ := by
  rw [hasAnykey, if_pos rfl, countP_bits_eq_zero, Finset.eq_empty_iff_forall_notMem]
  exact forall_congr' fun c => not_congr (h.bits c)

/-- The reports are the set of keys that are held, and the array has each of them once. -/
theorem reports_agree (ops : List KeyOp) (hops : ∀ op ∈ ops, op.Reportable)
    (hheld : ∀ n, (held (ops.take n)).card ≤ keyboardReportKeys) :
    (∀ key, isKeyPressed false (runKeys false ops) key = decide (key ∈ held ops) ∧
      isKeyPressed true (runKeys true ops) key = decide (key ∈ held ops)) ∧
    (hasAnykey false (runKeys false ops) = 0 ↔ hasAnykey true (runKeys true ops) = 0) ∧
    ((runKeys false ops).keyboard.keys.filter (· ≠ 0)).Nodup := by
  have h := runKeys_agree ops hops hheld
  exact ⟨fun key => ⟨h.isKeyPressed_six key, h.isKeyPressed_nkro key⟩, h.hasAnykey_six.trans h.hasAnykey_nkro.symm,
    h.slots.nodup⟩

def holeOps : List KeyOp := [.addKey 4, .addKey 5, .delKey 4, .addKey 6, .addKey 5]

theorem reports_agree_hole :
    (∀ key, isKeyPressed false (runKeys false holeOps) key = decide (key ∈ held holeOps) ∧
      isKeyPressed true (runKeys true holeOps) key = decide (key ∈ held holeOps)) ∧
    (hasAnykey false (runKeys false holeOps) = 0 ↔ hasAnykey true (runKeys true holeOps) = 0) ∧
    ((runKeys false holeOps).keyboard.keys.filter (· ≠ 0)).Nodup := by
  refine reports_agree holeOps (by decide) fun n => ?_
  match n with
  | 0 | 1 | 2 | 3 | 4 => decide
  | n + 5 =>
    rw [List.take_of_length_le (Nat.le_add_left 5 n)]
    decide

end Keys
end VialQmk
