import VialQmk.Eeprom.Firewall

/-!
# Eeprom.BulkWrite

What `dynamic_keymap_set_buffer` touches: the bytes of the packet it reads, those it rewrites, and the EEPROM bytes
it writes (`set_buffer_bounded_iff`).
-/

namespace VialQmk
namespace Eeprom

open Lib

def checkLoopReads (chkSz data : Nat) : Nat → Nat → List Nat
  | 0, _ => []
  | fuel + 1, i => if i < chkSz then (data + i) :: (data + i + 1) :: checkLoopReads chkSz data fuel (i + 2) else []

def checkPacketReads (offset size : UInt16) (data : Nat) : List Nat :=
  let chkSz := if (offset.toNat + size.toNat) % 2 ≠ 0 then (size - 1).toNat else size.toNat
  (if offset.toNat % 2 ≠ 0 then [data] else []) ++
    (if (offset.toNat + size.toNat) % 2 ≠ 0 then [data + size.toNat - 1] else []) ++
    checkLoopReads chkSz data chkSz (if offset.toNat % 2 ≠ 0 then 1 else 0)

/-- The bytes of memory that `dynamicKeymapSetBuffer` reads through `data`. -/
def setBufferReads (d : Dims) (vialUnlocked : Bool) (offset size : UInt16) (data : Nat) : List Nat :=
  let dynamicKeymapEepromSize := d.dynamicKeymapEepromSize % 65536
  if offset.toNat ≥ dynamicKeymapEepromSize ∨ dynamicKeymapEepromSize - offset.toNat < size.toNat then []
  else
    (if vialUnlocked then [] else checkPacketReads offset size data) ++
      ((List.range size.toNat).filter fun i => offset.toNat + i < dynamicKeymapEepromSize).map (data + ·)

/-- The keycode that the packet, as it came, makes of the cell with this byte of the keymap. -/
def packetKeycode (d : Dims) (m : EepromMem) (offset size : UInt16) (data : Nat) (ram : Ram) (k : Nat) : UInt16 :=
  let cell := k - k % 2
  beWord (bulkByte offset size data ram cell (m (d.dynamicKeymapEepromAddr + cell)))
    (bulkByte offset size data ram (cell + 1) (m (d.dynamicKeymapEepromAddr + cell + 1)))

/-- Only the bytes of the packet are read and rewritten, only the bytes of the keymap that it covers are written, and
each gets the packet's byte unless that is part of a keycode that the firewall replaces. -/
structure SetBufferBounded (d : Dims) (vialUnlocked : Bool) (m : EepromMem) (offset size : UInt16) (data : Nat)
    (ram : Ram) : Prop where
  reads : ∀ a ∈ setBufferReads d vialUnlocked offset size data, data ≤ a ∧ a < data + size.toNat
  rewrites : ∀ a, a < data ∨ data + size.toNat ≤ a →
    (dynamicKeymapSetBuffer d vialUnlocked m offset size data ram).2 a = ram a
  writes : ∀ x, (dynamicKeymapSetBuffer d vialUnlocked m offset size data ram).1 x ≠ m x →
    d.dynamicKeymapEepromAddr + offset.toNat ≤ x ∧ x < d.dynamicKeymapEepromAddr + offset.toNat + size.toNat ∧
      x < d.dynamicKeymapEepromAddr + d.dynamicKeymapEepromSize
  bytes : InKeymap d offset size → ∀ j, j < size.toNat →
    (dynamicKeymapSetBuffer d vialUnlocked m offset size data ram).1
        (d.dynamicKeymapEepromAddr + offset.toNat + j) = ram (data + j) ∨
      vialUnlocked = false ∧ packetKeycode d m offset size data ram (offset.toNat + j) = qkBoot ∧
        (dynamicKeymapSetBuffer d vialUnlocked m offset size data ram).1
          (d.dynamicKeymapEepromAddr + offset.toNat + j) = 0xFF

section Loop

variable {chkSz data : Nat}

theorem checkLoopReads_mem {a : Nat} : ∀ {fuel i : Nat}, (i + chkSz) % 2 = 0 → a ∈ checkLoopReads chkSz data fuel i →
    data + i ≤ a ∧ a < data + chkSz := by
  intro fuel
  induction fuel with
  | zero =>
    intro i _ h
    cases h
  | succ fuel ih =>
    intro i hpar h
    rw [checkLoopReads] at h
    split at h
    · rcases List.mem_cons.mp h with rfl | h
      · omega
      · rcases List.mem_cons.mp h with rfl | h
        · omega
        · have hrest := @ih (i + 2) (by omega) h
          omega
    · cases h

theorem checkPair_congr {i : Nat} {ram ram' : Ram} (hhi : ram (data + i) = ram' (data + i))
    (hlo : ram (data + i + 1) = ram' (data + i + 1)) :
    checkPair data i ram (data + i) = checkPair data i ram' (data + i) ∧
      checkPair data i ram (data + i + 1) = checkPair data i ram' (data + i + 1) := by
  unfold checkPair
  rw [hhi, hlo]
  split
  · rw [Function.update_of_ne (by omega), Function.update_self, Function.update_of_ne (by omega), Function.update_self,
      Function.update_self, Function.update_self]
    exact ⟨rfl, rfl⟩
  · exact ⟨hhi, hlo⟩

theorem checkLoop_pair {j : Nat} : ∀ {fuel i : Nat} {ram : Ram}, chkSz - i ≤ fuel → i ≤ j → j < chkSz →
    (j - i) % 2 = 0 → checkLoop chkSz data fuel i ram (data + j) = checkPair data j ram (data + j) ∧
      checkLoop chkSz data fuel i ram (data + j + 1) = checkPair data j ram (data + j + 1) := by
  intro fuel
  induction fuel with
  | zero => intros; omega
  | succ fuel ih =>
    intro i ram hfuel hij hj hpar
    rw [checkLoop, if_pos (by omega)]
    by_cases he : j = i
    · subst he
      rw [checkLoop_of_lt _ _ _ (by omega), checkLoop_of_lt _ _ _ (by omega)]
      exact ⟨rfl, rfl⟩
    · obtain ⟨hhi, hlo⟩ := @ih (i + 2) (checkPair data i ram) (by omega) (by omega) hj (by omega)
      obtain ⟨hhi', hlo'⟩ := @checkPair_congr data j (checkPair data i ram) ram
        (checkPair_of_ne ram (by omega) (by omega)) (checkPair_of_ne ram (by omega) (by omega))
      exact ⟨hhi.trans hhi', hlo.trans hlo'⟩

theorem checkPair_byte {i x : Nat} (ram : Ram) (hx : x = data + i ∨ x = data + i + 1) :
    checkPair data i ram x = ram x ∨
      beWord (ram (data + i)) (ram (data + i + 1)) = qkBoot ∧ checkPair data i ram x = 0xFF := by
  unfold checkPair
  split
  · rename_i hboot
    refine .inr ⟨hboot, ?_⟩
    rcases hx with rfl | rfl
    · rw [Function.update_of_ne (by omega), Function.update_self]
    · rw [Function.update_self]
  · exact .inl rfl

end Loop

section Packet

variable {m : EepromMem} {target data : Nat} {offset size : UInt16} {ram : Ram}

theorem checkStart_of_ne {x : Nat} (h : x ≠ data ∨ offset.toNat % 2 = 0) :
    checkStart m target offset data ram x = ram x := by
  unfold checkStart
  split
  · rename_i hodd
    rw [Function.update_of_ne (h.resolve_right hodd.1)]
  · rfl

theorem checkPacket_outside (hsize : 0 < size.toNat) {x : Nat} (hx : x < data ∨ data + size.toNat ≤ x) :
    checkPacket m target offset size data ram x = ram x := by
  rw [checkPacket_eq]
  dsimp only
  rw [chkSz_eq hsize]
  have hrest : checkEnd m target offset size data (checkStart m target offset data ram) x = ram x := by
    rw [checkEnd_of_ne (by omega), checkStart_of_ne (.inl (by omega))]
  rcases hx with hx | hx
  · rw [checkLoop_of_lt _ _ _ (by omega), hrest]
  · rw [checkLoop_of_ge _ _ _ (by split <;> omega) (by omega), hrest]

theorem checkPacket_empty (hsize : size.toNat = 0) (heven : offset.toNat % 2 = 0) :
    checkPacket m target offset size data ram = ram := by
  have hstart : checkStart m target offset data ram = ram := by
    rw [checkStart, if_neg (by omega)]
  have hend : checkEnd m target offset size data ram = ram := by
    rw [checkEnd, if_neg (by omega)]
  rw [checkPacket_eq, hstart, hend, if_neg (show ¬(offset.toNat + size.toNat) % 2 ≠ 0 by omega), hsize]
  rfl

theorem checkEnds_inner {i x : Nat} (hpar : (offset.toNat + i) % 2 = 0) (hi : i + 1 < size.toNat)
    (hx : x = data + i ∨ x = data + i + 1) :
    checkEnd m target offset size data (checkStart m target offset data ram) x = ram x := by
  by_cases hlast : x = data + size.toNat - 1
  · rw [checkEnd, if_neg (by omega), checkStart_of_ne (by omega)]
  · rw [checkEnd_of_ne hlast, checkStart_of_ne (by omega)]

theorem checkPacket_inner_byte {i x : Nat} (hpar : (offset.toNat + i) % 2 = 0) (hi : i + 1 < size.toNat)
    (hx : x = data + i ∨ x = data + i + 1) :
    checkPacket m target offset size data ram x = ram x ∨
      beWord (ram (data + i)) (ram (data + i + 1)) = qkBoot ∧
        checkPacket m target offset size data ram x = 0xFF := by
  have hends := fun y => @checkEnds_inner m target data offset size ram i y hpar hi
  rw [checkPacket_eq]
  dsimp only
  rw [chkSz_eq (by omega)]
  generalize checkEnd m target offset size data (checkStart m target offset data ram) = checked at hends ⊢
  have hbyte := checkPair_byte checked hx
  rw [hends x hx, hends _ (.inl rfl), hends _ (.inr rfl)] at hbyte
  have hloop := @checkLoop_pair (size.toNat - (offset.toNat + size.toNat) % 2) data i
    (size.toNat - (offset.toNat + size.toNat) % 2) (if offset.toNat % 2 ≠ 0 then 1 else 0) checked
    (by omega) (by split <;> omega) (by omega) (by split <;> omega)
  rcases hx with rfl | rfl
  · rwa [hloop.1]
  · rwa [hloop.2]

theorem packetKeycode_inner (d : Dims) (m : EepromMem) (ram : Ram) {i k : Nat} (hpar : (offset.toNat + i) % 2 = 0)
    (hi : i + 1 < size.toNat) (hk : k = i ∨ k = i + 1) :
    packetKeycode d m offset size data ram (offset.toNat + k) = beWord (ram (data + i)) (ram (data + i + 1)) := by
  have hcell : offset.toNat + k - (offset.toNat + k) % 2 = offset.toNat + i := by omega
  rw [packetKeycode, hcell, bulkByte, bulkByte, if_pos (by omega), if_pos (by omega),
    show offset.toNat + i - offset.toNat = i by omega, show offset.toNat + i + 1 - offset.toNat = i + 1 by omega]
  rfl

theorem checkPacket_last (d : Dims) (m : EepromMem) (ram : Ram) {j : Nat} (hpar : (offset.toNat + j) % 2 = 0)
    (hlast : j + 1 = size.toNat) :
    checkPacket m (d.dynamicKeymapEepromAddr + offset.toNat) offset size data ram (data + j) = ram (data + j) ∨
      packetKeycode d m offset size data ram (offset.toNat + j) = qkBoot ∧
        checkPacket m (d.dynamicKeymapEepromAddr + offset.toNat) offset size data ram (data + j) = 0xFF := by
  have heq : data + j = data + size.toNat - 1 := by omega
  rw [checkPacket_eq]
  dsimp only
  rw [chkSz_eq (by omega), checkLoop_of_ge _ _ _ (by split <;> omega) (by omega), checkEnd, ← heq]
  split
  · rename_i hboot
    rw [checkStart_of_ne (by omega)] at hboot
    refine .inr ⟨?_, Function.update_self _ _ _⟩
    rw [packetKeycode, hpar, bulkByte, bulkByte, if_pos (by omega), if_neg (by omega),
      show offset.toNat + j - 0 - offset.toNat = j by omega, show d.dynamicKeymapEepromAddr + (offset.toNat + j - 0) + 1 =
      d.dynamicKeymapEepromAddr + offset.toNat + size.toNat by omega]
    exact hboot.2
  · exact .inl (checkStart_of_ne (by omega))

theorem checkPacket_first (d : Dims) (m : EepromMem) (ram : Ram) (hodd : offset.toNat % 2 = 1)
    (hsize : 0 < size.toNat) :
    checkPacket m (d.dynamicKeymapEepromAddr + offset.toNat) offset size data ram data = ram data ∨
      packetKeycode d m offset size data ram offset.toNat = qkBoot ∧
        checkPacket m (d.dynamicKeymapEepromAddr + offset.toNat) offset size data ram data = 0xFF := by
  have hkeep : checkEnd m (d.dynamicKeymapEepromAddr + offset.toNat) offset size data
      (checkStart m (d.dynamicKeymapEepromAddr + offset.toNat) offset data ram) data =
        checkStart m (d.dynamicKeymapEepromAddr + offset.toNat) offset data ram data := by
    by_cases hone : size.toNat = 1
    · rw [checkEnd, if_neg (by omega)]
    · rw [checkEnd_of_ne (by omega)]
  rw [checkPacket_eq]
  dsimp only
  rw [chkSz_eq hsize, checkLoop_of_lt _ _ _ (by split <;> omega), hkeep, checkStart]
  split
  · rename_i hboot
    refine .inr ⟨?_, Function.update_self _ _ _⟩
    have hcell : offset.toNat - offset.toNat % 2 = offset.toNat - 1 := by omega
    rw [packetKeycode, hcell, bulkByte, bulkByte, if_neg (by omega), if_pos (by omega),
      show offset.toNat - 1 + 1 - offset.toNat = 0 by omega,
      show d.dynamicKeymapEepromAddr + (offset.toNat - 1) = d.dynamicKeymapEepromAddr + offset.toNat - 1 by omega]
    exact hboot.2
  · exact .inl rfl

theorem checkPacket_byte (d : Dims) (m : EepromMem) (ram : Ram) {j : Nat} (hj : j < size.toNat) :
    checkPacket m (d.dynamicKeymapEepromAddr + offset.toNat) offset size data ram (data + j) = ram (data + j) ∨
      packetKeycode d m offset size data ram (offset.toNat + j) = qkBoot ∧
        checkPacket m (d.dynamicKeymapEepromAddr + offset.toNat) offset size data ram (data + j) = 0xFF := by
  by_cases hpar : (offset.toNat + j) % 2 = 0
  · by_cases hlast : j + 1 < size.toNat
    · rw [packetKeycode_inner d m ram hpar hlast (.inl rfl)]
      exact checkPacket_inner_byte hpar hlast (.inl rfl)
    · exact checkPacket_last d m ram hpar (by omega)
  · by_cases hfirst : j = 0
    · subst hfirst
      exact checkPacket_first d m ram (by omega) hj
    · have hpar' : (offset.toNat + (j - 1)) % 2 = 0 := by omega
      rw [packetKeycode_inner d m ram hpar' (by omega) (.inr (by omega))]
      exact checkPacket_inner_byte hpar' (by omega) (.inr (by omega))

end Packet

section Call

variable {g : Geometry} {vialUnlocked : Bool} {m : EepromMem} {offset size : UInt16} {data : Nat} {ram : Ram}

theorem mem_setBufferReads (hk : InKeymap g.toDims offset size) {a : Nat} :
    a ∈ setBufferReads g.toDims vialUnlocked offset size data ↔
      (vialUnlocked = false ∧ a ∈ checkPacketReads offset size data) ∨ data ≤ a ∧ a < data + size.toNat := by
  have hbound := hk
  simp only [InKeymap] at hbound
  rw [setBufferReads, Nat.mod_eq_of_lt g.eepromSize_lt, if_neg (by omega), List.mem_append, List.mem_map]
  refine or_congr (by cases vialUnlocked <;> simp) ⟨?_, fun h => ⟨a - data, ?_, by omega⟩⟩
  · rintro ⟨i, hi, rfl⟩
    have hlt := List.mem_range.mp (List.mem_filter.mp hi).1
    omega
  · rw [List.mem_filter, List.mem_range, decide_eq_true_eq]
    omega

theorem checkPacketReads_mem (hsize : 0 < size.toNat) {a : Nat} (h : a ∈ checkPacketReads offset size data) :
    data ≤ a ∧ a < data + size.toNat := by
  rw [checkPacketReads, chkSz_eq hsize, List.mem_append, List.mem_append] at h
  rcases h with (h | h) | h
  · split at h
    · rw [List.mem_singleton.mp h]
      omega
    · cases h
  · split at h
    · rw [List.mem_singleton.mp h]
      omega
    · cases h
  · have hmem := checkLoopReads_mem (by split <;> omega) h
    omega

/-- The call is bounded, but for an empty packet at an odd offset of a locked board. -/
theorem set_buffer_bounded_iff :
    SetBufferBounded g.toDims vialUnlocked m offset size data ram ↔
      ¬(vialUnlocked = false ∧ size.toNat = 0 ∧ offset.toNat % 2 = 1 ∧ offset.toNat < g.dynamicKeymapEepromSize) := by
  constructor
  · rintro h ⟨hlocked, hsize, hodd, hlt⟩
    have hk : InKeymap g.toDims offset size := ⟨hlt, by omega⟩
    have hread : data ∈ checkPacketReads offset size data := by
      rw [checkPacketReads, if_pos (by omega)]
      exact List.mem_append_left _ (List.mem_append_left _ List.mem_cons_self)
    have hbad := h.reads data ((mem_setBufferReads hk).mpr (.inl ⟨hlocked, hread⟩))
    omega
  · intro hgood
    by_cases hk : InKeymap g.toDims offset size
    swap
    · refine ⟨fun a ha => ?_, fun a _ => by rw [setBuffer_of_not_inKeymap hk],
        fun x hx => absurd (by rw [setBuffer_of_not_inKeymap hk]) hx, fun hin => absurd hin hk⟩
      simp only [InKeymap] at hk
      rw [setBufferReads, Nat.mod_eq_of_lt g.eepromSize_lt, if_pos (by omega)] at ha
      cases ha
    have hempty : vialUnlocked = false → size.toNat = 0 → offset.toNat % 2 = 0 := by
      intro hlocked hsize
      by_contra hodd
      exact hgood ⟨hlocked, hsize, by omega, hk.1⟩
    have hwrite : ∀ x, (dynamicKeymapSetBuffer g.toDims vialUnlocked m offset size data ram).1 x =
        if g.dynamicKeymapEepromAddr + offset.toNat ≤ x ∧ x < g.dynamicKeymapEepromAddr + offset.toNat + size.toNat then
          (dynamicKeymapSetBuffer g.toDims vialUnlocked m offset size data ram).2
            (data + (x - (g.dynamicKeymapEepromAddr + offset.toNat)))
        else m x := by
      intro x
      rw [setBuffer_of_inKeymap hk]
      exact bufferWrite_inKeymap hk x
    refine ⟨fun a ha => ?_, fun a ha => ?_, fun x hx => ?_, fun _ j hj => ?_⟩
    · rcases (mem_setBufferReads hk).mp ha with ⟨hlocked, hread⟩ | hread
      · by_cases hsize : size.toNat = 0
        · have heven := hempty hlocked hsize
          simp [checkPacketReads, hsize, heven, checkLoopReads] at hread
        · exact checkPacketReads_mem (Nat.pos_of_ne_zero hsize) hread
      · exact hread
    · rw [setBuffer_of_inKeymap hk]
      dsimp only
      split
      · rfl
      · rename_i hlocked
        by_cases hsize : size.toNat = 0
        · rw [checkPacket_empty hsize (hempty (Bool.not_eq_true _ ▸ hlocked) hsize)]
        · exact checkPacket_outside (Nat.pos_of_ne_zero hsize) ha
    · rw [hwrite] at hx
      have hbound := hk.2
      by_cases hin : g.dynamicKeymapEepromAddr + offset.toNat ≤ x ∧
          x < g.dynamicKeymapEepromAddr + offset.toNat + size.toNat
      · omega
      · rw [if_neg hin] at hx
        exact absurd rfl hx
    · rw [hwrite, if_pos (by omega), Nat.add_sub_cancel_left, setBuffer_of_inKeymap hk]
      dsimp only
      split
      · exact .inl rfl
      · rename_i hlocked
        exact (checkPacket_byte g.toDims m ram hj).imp_right fun h => ⟨Bool.not_eq_true _ ▸ hlocked, h⟩

def oneKey : Geometry where
  matrixRows := 1
  matrixCols := 1
  layerCount := 1
  numEncoders := 0
  tapDanceEntries := 0
  comboEntries := 0
  keyOverrideEntries := 0
  kbDataSize := 0
  userDataSize := 0
  layoutOptionsSize := 1
  customConfigSize := 0
  maxAddr := 1023
  fits := by decide
  maxAddr_le := kibibyte_le

/-- An empty packet for the low byte of the key reads the byte that the packet does not have. -/
theorem empty_packet_reads_on :
    ¬ ∀ (g : Geometry) (vialUnlocked : Bool) (m : EepromMem) (offset size : UInt16) (data : Nat) (ram : Ram),
      size.toNat ≤ 28 → SetBufferBounded g.toDims vialUnlocked m offset size data ram := by
  intro h
  have hread : 4 ∈ setBufferReads oneKey.toDims false 1 0 4 :=
    (mem_setBufferReads ⟨by decide, by decide⟩).mpr (.inl ⟨rfl, List.mem_append_left _ (List.mem_append_left _ (by decide))⟩)
  exact absurd ((h oneKey false (fun _ => 0) 1 0 4 (fun _ => 0) (by decide)).reads 4 hread).2 (by decide)

end Call

end Eeprom
end VialQmk
