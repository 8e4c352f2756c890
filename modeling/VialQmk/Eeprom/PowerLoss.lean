import VialQmk.Eeprom.BulkWrite
import VialQmk.WearLeveling.Rewrites

/-!
# Eeprom.PowerLoss

The slots on the wear-leveling store, through `eeprom_driver.c` and `eeprom_wear_leveling.c`: the image of the store is
the byte array that `Slot.set` works on (`doEdits_cache`).

* `edits_power_loss`: what the next start finds when power is lost anywhere in a sequence of edits.
-/

namespace VialQmk
namespace Eeprom

open Lib WearLeveling

namespace OnFlash

section Driver

variable (cfg : Config) (drv : Driver)

def eepromReadBlock (s : State) (address length : Nat) : List UInt8 := (wearLevelingRead cfg s address length).2

def eepromReadByte (s : State) (address : Nat) : UInt8 := (eepromReadBlock cfg s address 1).headD 0

def eepromWriteBlock (s : State) (value : List UInt8) (address : Nat) : State :=
  (wearLevelingWrite cfg drv s address value).2

def eepromUpdateByte (s : State) (address : Nat) (value : UInt8) : State :=
  if eepromReadByte cfg s address ≠ value then eepromWriteBlock cfg drv s [value] address else s

def updateBytes : State → Nat → List UInt8 → State
  | s, _, [] => s
  | s, address, v :: vs => updateBytes (eepromUpdateByte cfg drv s address v) (address + 1) vs

end Driver

abbrev Edit := (t : Slot) × t.Value

section Edit

variable (g : Geometry)

instance (t : Slot) : Decidable (t.Valid g) :=
  match t with
  | .key .. => inferInstanceAs (Decidable (KeyInRange ..))
  | .encoder .. => inferInstanceAs (Decidable (EncoderInRange ..))
  | .setting _ | .tapDance _ | .combo _ | .keyOverride _ | .macroByte _ => inferInstanceAs (Decidable (_ < _))

def isBlock : Slot → Bool
  | .tapDance _ | .combo _ | .keyOverride _ => true
  | .key .. | .encoder .. | .setting _ | .macroByte _ => false

def first (e : Edit) : Nat := (e.1.field g.toDims).addr

def bytes (e : Edit) : List UInt8 := e.1.codec.enc e.2

def doEdit (cfg : Config) (drv : Driver) (s : State) (e : Edit) : State :=
  if e.1.Valid g then
    if isBlock e.1 then eepromWriteBlock cfg drv s (bytes e) (first g e)
    else updateBytes cfg drv s (first g e) (bytes e)
  else s

def doEdits (cfg : Config) (drv : Driver) (s : State) (edits : List Edit) : State := edits.foldl (doEdit g cfg drv) s

/-- The store when power is lost after the first `k` operations of the edits. -/
def crashEdits (cfg : Config) (stack : Raw8) (s : State) (edits : List Edit) (k : Nat) : Mem UInt8 :=
  applyOps s.store ((newOps s (doEdits g cfg (.working stack) s edits)).take k)

def applyEdit (m : EepromMem) (e : Edit) : EepromMem := e.1.set g m e.2

def chunks (e : Edit) : List (List UInt8) :=
  if e.1.Valid g then if isBlock e.1 then [bytes e] else (bytes e).map ([·]) else []

def layout : Nat → List (List UInt8) → List (Nat × List UInt8)
  | _, [] => []
  | a, c :: cs => (a, c) :: layout (a + c.length) cs

def editWrites (e : Edit) : List (Nat × List UInt8) := layout (first g e) (chunks g e)

end Edit

section Layout

variable {cfg : Config} {stack : Raw8} {g : Geometry} {e : Edit}

variable (cs : List (List UInt8))

theorem layout_piece : ∀ {a b : Nat} {p : List UInt8} {done : List (Nat × List UInt8)},
    done ++ [(b, p)] <+: layout a cs →
      ∃ pre post, cs = pre ++ p :: post ∧ done = layout a pre ∧ b = a + pre.flatten.length := by
  induction cs with
  | nil =>
    intro a b p done h
    simp [layout] at h
  | cons c cs ih =>
    intro a b p done h
    cases done with
    | nil =>
      obtain ⟨h, -⟩ := List.cons_prefix_cons.mp h
      cases h
      exact ⟨[], cs, rfl, rfl, rfl⟩
    | cons d done =>
      rw [List.cons_append, layout, List.cons_prefix_cons] at h
      obtain ⟨rfl, h⟩ := h
      obtain ⟨pre, post, rfl, rfl, rfl⟩ := ih h
      exact ⟨c :: pre, post, rfl, rfl, by rw [List.flatten_cons, List.length_append, Nat.add_assoc]⟩

theorem layout_fits : ∀ {a : Nat}, a + cs.flatten.length ≤ cfg.logicalSize →
    ∀ w ∈ layout a cs, w.1 + w.2.length ≤ cfg.logicalSize := by
  induction cs with
  | nil => exact fun _ _ h => absurd h List.not_mem_nil
  | cons c cs ih =>
    intro a h
    rw [List.flatten_cons, List.length_append, ← Nat.add_assoc] at h
    exact List.forall_mem_cons.mpr ⟨(Nat.le_add_right _ _).trans h, ih h⟩

theorem writes_layout : ∀ {s : State} {a : Nat}, a + cs.flatten.length ≤ cfg.logicalSize →
    (writes cfg stack s (layout a cs)).cache = s.cache.writeBlock a cs.flatten := by
  induction cs with
  | nil => exact fun _ => rfl
  | cons c cs ih =>
    intro s a h
    rw [List.flatten_cons, List.length_append, ← Nat.add_assoc] at h
    rw [layout, writes_cons, ih h, (write_consolidated cfg _ s ((Nat.le_add_right _ _).trans h)).1,
      List.flatten_cons, Mem.writeBlock_append]

theorem updateByte_eq {drv : Driver} {s : State} {address : Nat} (h : address < cfg.logicalSize) (value : UInt8) :
    eepromUpdateByte cfg drv s address value = (wearLevelingWrite cfg drv s address [value]).2 := by
  have hfit : ¬address + [value].length > cfg.logicalSize := Nat.not_lt.mpr h
  have hread : eepromReadByte cfg s address = s.cache address := by
    rw [eepromReadByte, eepromReadBlock, wearLevelingRead, if_neg (Nat.not_lt.mpr h)]
    rfl
  rw [eepromUpdateByte, hread]
  split
  · rfl
  · rename_i hne
    have hsame : s.cache.readBlock address [value].length = [value] := congrArg ([·]) (not_not.mp hne)
    rw [wearLevelingWrite, if_neg hfit, if_pos hsame]

theorem updateBytes_eq (vs : List UInt8) : ∀ {s : State} {address : Nat}, address + vs.length ≤ cfg.logicalSize →
    updateBytes cfg (.working stack) s address vs = writes cfg stack s (layout address (vs.map ([·]))) := by
  induction vs with
  | nil => exact fun _ => rfl
  | cons v vs ih =>
    intro s address h
    rw [List.length_cons] at h
    rw [updateBytes, updateByte_eq (by omega), ih (by omega)]
    rfl

theorem chunks_flatten (h : e.1.Valid g) : (chunks g e).flatten = bytes e := by
  rw [chunks, if_pos h]
  split
  · exact List.append_nil _
  · rw [← List.flatMap_def, List.flatMap_singleton']

theorem chunks_of_not_valid (h : ¬e.1.Valid g) : chunks g e = [] := if_neg h

theorem applyEdit_eq (h : e.1.Valid g) (m : EepromMem) : applyEdit g m e = m.writeBlock (first g e) (bytes e) :=
  Slot.set_eq h m e.2

theorem bytes_end (hsize : g.maxAddr < cfg.logicalSize) (h : e.1.Valid g) :
    first g e + (bytes e).length ≤ cfg.logicalSize := by
  have hmacro : (g.region .macroByte).stop ≤ g.maxAddr + 1 := by
    have hend := g.macro_end
    simp only [Dims.region, Region.stop]
    omega
  have hstop : (g.region e.1.table).stop ≤ g.maxAddr + 1 := by
    rcases Nat.lt_or_ge e.1.table.rank 6 with hrank | hrank
    · exact (region_chain g.toDims (u := .macroByte) hrank).trans ((Region.base_le_stop _).trans hmacro)
    · have htable : e.1.table = .macroByte := by
        cases htable : e.1.table <;> first | rfl | (simp [htable, Table.rank] at hrank)
      rw [htable]
      exact hmacro
  have haddr := Region.addr_add_width_le_stop (Slot.index_lt_count h)
  have hlength : (bytes e).length = (g.region e.1.table).width :=
    (e.1.codec.enc_length e.2).trans (Slot.codec_size g.toDims e.1)
  rw [hlength]
  exact haddr.trans (hstop.trans hsize)

variable (hsize : g.maxAddr < cfg.logicalSize)

include hsize

theorem editWrites_fit (e : Edit) : ∀ w ∈ editWrites g e, w.1 + w.2.length ≤ cfg.logicalSize := by
  by_cases h : e.1.Valid g
  · exact layout_fits _ (chunks_flatten h ▸ bytes_end hsize h)
  · rw [editWrites, chunks_of_not_valid h]
    exact fun _ h => absurd h List.not_mem_nil

theorem doEdit_eq (s : State) (e : Edit) : doEdit g cfg (.working stack) s e = writes cfg stack s (editWrites g e) := by
  rw [doEdit, editWrites, chunks]
  split
  · split
    · rfl
    · exact updateBytes_eq _ (bytes_end hsize ‹_›)
  · rfl

theorem doEdit_cache (s : State) (e : Edit) : (doEdit g cfg (.working stack) s e).cache = applyEdit g s.cache e := by
  rw [doEdit_eq hsize, editWrites]
  by_cases h : e.1.Valid g
  · rw [writes_layout _ (chunks_flatten h ▸ bytes_end hsize h), chunks_flatten h, applyEdit_eq h]
  · rw [chunks_of_not_valid h, applyEdit, Slot.set_of_not_valid h]
    rfl

theorem doEdits_cache (edits : List Edit) : ∀ s : State,
    (doEdits g cfg (.working stack) s edits).cache = edits.foldl (applyEdit g) s.cache := by
  induction edits with
  | nil => exact fun _ => rfl
  | cons e edits ih => exact fun s => (ih _).trans (by rw [doEdit_cache hsize]; rfl)

theorem doEdits_eq (edits : List Edit) : ∀ s : State,
    doEdits g cfg (.working stack) s edits = writes cfg stack s (edits.flatMap (editWrites g)) := by
  induction edits with
  | nil => exact fun _ => rfl
  | cons e edits ih =>
    intro s
    rw [List.flatMap_cons, writes_append, ← doEdit_eq hsize, ← ih]
    rfl

end Layout

def InSlot (g : Geometry) (e : Edit) (x : Nat) : Prop := first g e ≤ x ∧ x < first g e + (bytes e).length

/-- What the next start finds of an edit that was cut short, with `s` the state before it. -/
inductive Interrupted (cfg : Config) (stack : Raw8) (g : Geometry) (s : State) (e : Edit) (image : EepromMem) :
    Prop where
  /-- The other slots are as they were, and each byte of this one is the old one, the new one or zero. -/
  | kept (others : ∀ t : Slot, t.Valid g → t ≠ e.1 → t.get g image = t.get g s.cache)
      (bytes : ∀ x, image x = s.cache x ∨ (InSlot g e x ∧ (image x = applyEdit g s.cache e x ∨ image x = 0)))
  /-- A two-byte store lost the low byte of an address in the slot. -/
  | headless (two : cfg.writeSize = 2) (address length : Nat) (lower : first g e ≤ address)
      (upper : address + length ≤ first g e + (bytes e).length)
      (bytes : ∀ x, image x = s.cache x ∨ (InSlot g e x ∧ image x = applyEdit g s.cache e x) ∨
        (address - address % 256 ≤ x ∧ x < address - address % 256 + length ∧ image x = 0))
  /-- The log was full. -/
  | rebuilt (done : List (Nat × List UInt8)) (address : Nat) (value : List UInt8)
      (within : done ++ [(address, value)] <+: editWrites g e)
      (erases : WriteErases cfg stack (writes cfg stack s done) address value)
      (c : Cache) (bytes : ∀ x, c x = s.cache x ∨ (InSlot g e x ∧ c x = applyEdit g s.cache e x))
      (rebuilt : Rebuilt cfg c image)

section Interrupted

variable {cfg : Config} {stack : Raw8} {g : Geometry} {s : State} {e : Edit} {image : EepromMem}

theorem others_of_bytes (he : e.1.Valid g) (h : ∀ x, image x = s.cache x ∨ InSlot g e x) {t : Slot} (ht : t.Valid g)
    (hne : t ≠ e.1) : t.get g image = t.get g s.cache := by
  rw [Slot.get_eq ht, Slot.get_eq ht]
  refine congrArg (fun v => some (t.codec.dec v)) (Mem.readBlock_congr fun i hi => ?_)
  refine (h _).resolve_right fun ⟨hlo, hhi⟩ => ?_
  have hdisjoint : (t.field g.toDims).addr + t.codec.size ≤ first g e ∨
      first g e + e.1.codec.size ≤ (t.field g.toDims).addr := Slot.field_disjoint ht he hne
  have hi : i < t.codec.size := hi
  have hlength : (bytes e).length = e.1.codec.size := e.1.codec.enc_length e.2
  omega

theorem editWrites_found (hsize : g.maxAddr < cfg.logicalSize) (hmax : cfg.logicalSize ≤ maxLogicalSize)
    {done : List (Nat × List UInt8)} {address : Nat} {value : List UInt8}
    (hpre : done ++ [(address, value)] <+: editWrites g e)
    (h : Found cfg stack (writes cfg stack s done) address value image) : Interrupted cfg stack g s e image := by
  by_cases he : e.1.Valid g
  swap
  · rw [editWrites, chunks_of_not_valid he] at hpre
    simp [layout] at hpre
  obtain ⟨pre, post, hchunks, hdone, haddress⟩ := layout_piece _ hpre
  have hbytes : bytes e = pre.flatten ++ (value ++ post.flatten) := by
    rw [← chunks_flatten he, hchunks, List.flatten_append, List.flatten_cons]
  have hlength := congrArg List.length hbytes
  rw [List.length_append, List.length_append] at hlength
  have hend := bytes_end hsize he
  -- up to the cut the image has the first bytes of the edit
  have hpart : ∀ n x, s.cache.writeBlock (first g e) ((bytes e).take n) x = s.cache x ∨
      (InSlot g e x ∧ s.cache.writeBlock (first g e) ((bytes e).take n) x = applyEdit g s.cache e x) := by
    intro n x
    rw [applyEdit_eq he, InSlot, and_assoc]
    exact writeBlock_take_range s.cache _ _ n x
  have hmid : ∀ n, n ≤ value.length → (writes cfg stack s done).cache.writeBlock address (value.take n) =
      s.cache.writeBlock (first g e) ((bytes e).take (pre.flatten.length + n)) := by
    intro n hn
    rw [hdone, haddress, writes_layout pre (by omega), hbytes, List.take_length_add_append,
      List.take_append_of_le_length hn, Mem.writeBlock_append]
  have hold := hmid 0 (Nat.zero_le _)
  have hnew := hmid value.length (Nat.le_refl _)
  rw [List.take_length] at hnew
  generalize hstate : writes cfg stack s done = s' at h hmid hold hnew
  change s'.cache = _ at hold
  cases h with
  | torn n j le part =>
    by_cases hhead : j = 0 ∨ 2 < j * cfg.writeSize
    · have hcell := tornCache_bytes (c := s'.cache) (by omega) part hhead
      generalize tornCache cfg s'.cache address value n j = image at hcell
      have himage : ∀ x, image x = s.cache x ∨
          (InSlot g e x ∧ (image x = applyEdit g s.cache e x ∨ image x = 0)) := by
        intro x
        rcases hcell x with h | ⟨hlo, hhi, h | h⟩
        · rw [h, hold]
          exact (hpart _ x).imp_right fun h => ⟨h.1, .inl h.2⟩
        · rw [h, hnew]
          exact (hpart _ x).imp_right fun h => ⟨h.1, .inl h.2⟩
        · exact .inr ⟨⟨by omega, by omega⟩, .inr h⟩
      exact .kept (fun t ht hne => others_of_bytes he (fun x => (himage x).imp_right And.left) ht hne) himage
    · have hsizes : j = 1 ∧ cfg.writeSize = 2 := by
        rcases cfg.writeSize_cases with hws | hws | hws <;> rw [hws] at hhead ⊢ <;> omega
      obtain ⟨rfl, hws⟩ := hsizes
      obtain ⟨hn, hw⟩ := part.resolve_left Nat.one_ne_zero
      have hdrop : value.drop n ≠ [] := fun h => absurd (List.drop_eq_nil_iff.mp h) (Nat.not_le.mpr hn)
      have hconsumed := (nextEntry_consumed cfg (address + n) hdrop).2
      rw [List.length_drop] at hconsumed
      rw [tornCache_first_word hws (by omega) hw, hmid n le]
      generalize (nextEntry cfg (address + n) (value.drop n)).consumed = length at hconsumed
      refine .headless hws (address + n) length (by omega) (by omega) fun x => ?_
      by_cases hx : address + n - (address + n) % 256 ≤ x ∧ x < address + n - (address + n) % 256 + length
      · obtain ⟨i, rfl⟩ := Nat.exists_eq_add_of_le hx.1
        rw [Mem.writeBlock_of_mem (by simp; omega), List.getElem_replicate]
        exact .inr (.inr ⟨hx.1, hx.2, rfl⟩)
      · rcases Nat.lt_or_ge x (address + n - (address + n) % 256) with hlt | hge
        · rw [Mem.writeBlock_of_lt _ _ _ hlt]
          exact (hpart _ x).imp_right .inl
        · rw [Mem.writeBlock_of_ge (by simp; omega)]
          exact (hpart _ x).imp_right .inl
  | rebuilt erases rebuilt =>
    exact .rebuilt done address value hpre (hstate ▸ erases) _ (fun x => hnew ▸ hpart _ x) rebuilt

end Interrupted

theorem flatMap_prefix {α β : Type} (f : α → List β) (l : List α) : ∀ {done : List β} {w : β},
    done ++ [w] <+: l.flatMap f →
      ∃ l' x done', l' ++ [x] <+: l ∧ done = l'.flatMap f ++ done' ∧ done' ++ [w] <+: f x := by
  induction l with
  | nil =>
    intro done w h
    simp at h
  | cons x l ih =>
    intro done w h
    rw [List.flatMap_cons] at h
    rcases Nat.lt_or_ge done.length (f x).length with hlt | hge
    · exact ⟨[], x, done, List.prefix_append [x] l, rfl,
        List.prefix_of_prefix_length_le h (List.prefix_append _ _) (by rw [List.length_append]; exact hlt)⟩
    · obtain ⟨rest, rfl⟩ := List.prefix_of_prefix_length_le (List.prefix_append (f x) _)
        ((List.prefix_append done [w]).trans h) hge
      rw [List.append_assoc, List.prefix_append_right_inj] at h
      obtain ⟨l', y, done', hl, rfl, hw⟩ := ih h
      refine ⟨x :: l', y, done', List.cons_prefix_cons.mpr ⟨rfl, hl⟩, ?_, hw⟩
      rw [List.flatMap_cons, List.append_assoc]

/-- Some first edits were made, as on a byte array, and at most one more was cut short. -/
def Survives (g : Geometry) (cfg : Config) (stack : Raw8) (s : State) (edits : List Edit) (image : EepromMem) : Prop :=
  ∃ done, (doEdits g cfg (.working stack) s done).cache = done.foldl (applyEdit g) s.cache ∧
    ((done = edits ∧ image = done.foldl (applyEdit g) s.cache) ∨
      ∃ e, done ++ [e] <+: edits ∧ Interrupted cfg stack g (doEdits g cfg (.working stack) s done) e image)

/-- **Power lost among edits.** After any number of the store's operations, and after any calls and power losses
before. -/
theorem edits_power_loss (g : Geometry) (cfg : Config) (hsize : g.maxAddr < cfg.logicalSize)
    (hmax : cfg.logicalSize ≤ maxLogicalSize) {m : Mem UInt8} (hm : Stored cfg m) (stack₀ : Raw8)
    (calls : List (Raw8 × Call)) (stack : Raw8) (edits : List Edit) (k : Nat) (stack' : Raw8) :
    let s := started cfg m stack₀ calls
    let r := wearLevelingInit cfg (.working stack') (.powerUp (crashEdits g cfg stack s edits k))
    r.1 ≠ .failed ∧ Survives g cfg stack s edits r.2.cache := by
  intro s r
  have hsound := started_sound hmax hm.intact stack₀ calls
  have hfit : ∀ w ∈ edits.flatMap (editWrites g), w.1 + w.2.length ≤ cfg.logicalSize := by
    intro w hw
    obtain ⟨e, -, hw⟩ := List.mem_flatMap.mp hw
    exact editWrites_fit hsize e w hw
  obtain ⟨done, image, w, hlog, hdone⟩ := writes_found hmax stack _ hsound hfit k
  rw [crashWrites, ← doEdits_eq hsize] at hlog
  obtain ⟨hinit, hcache, -⟩ := init_working (s := .powerUp (crashEdits g cfg stack s edits k)) stack' hlog hlog.fits
  change r.2.cache = image at hcache
  refine ⟨hinit, ?_⟩
  rcases hdone with ⟨rfl, himage⟩ | ⟨address, value, hpre, hfound⟩
  · rw [← doEdits_eq hsize, doEdits_cache hsize] at himage
    exact ⟨edits, doEdits_cache hsize edits s, .inl ⟨rfl, hcache.trans himage⟩⟩
  · obtain ⟨l, e, done', hl, rfl, hw⟩ := flatMap_prefix (editWrites g) edits hpre
    rw [writes_append, ← doEdits_eq hsize] at hfound
    exact ⟨l, doEdits_cache hsize l s, .inr ⟨e, hl, hcache ▸ editWrites_found hsize hmax hw hfound⟩⟩

/-- Two-byte words for the EEPROM of the keyboard with one key. -/
def kibibyte : Config where
  writeSize := 2
  logicalSize := 1024
  backingSize := 2048
  writeSize_cases := Config.tiny.writeSize_cases
  logical_pos := by decide
  two_logical_le := by decide
  logical_mod := rfl
  backing_mod := rfl
  backing_lt := by decide

/-- A store whose power was lost behind the first word of a second write. -/
def tornStore : Mem UInt8 :=
  crash kibibyte (fun _ => 0) (started kibibyte (fun _ => 0) (fun _ => 0) [(fun _ => 0, .write 0x200 [1, 2, 3])])
    (.write 0x300 [4, 5]) 1

/-- Behind one more call the power goes again, within the second of two edits. -/
theorem edits_power_loss_twoEdits :
    let edits : List Edit := [⟨.key 0 0 0, 0x1234⟩, ⟨.macroByte 5, 0x41⟩]
    let s := started kibibyte tornStore (fun _ => 0) [(fun _ => 0, .write 0x100 [9])]
    let r := wearLevelingInit kibibyte (.working fun _ => 0)
      (.powerUp (crashEdits oneKey kibibyte (fun _ => 0) s edits 8))
    r.1 ≠ .failed ∧ Survives oneKey kibibyte (fun _ => 0) s edits r.2.cache := by
  have htorn : Stored kibibyte tornStore :=
    .duringCall .erased (fun _ => 0) [(fun _ => 0, .write 0x200 [1, 2, 3])] (fun _ => 0) (.write 0x300 [4, 5]) 1
  exact edits_power_loss oneKey kibibyte (by decide) (by decide) htorn (fun _ => 0) [(fun _ => 0, .write 0x100 [9])]
    (fun _ => 0) [⟨.key 0 0 0, 0x1234⟩, ⟨.macroByte 5, 0x41⟩] 8 (fun _ => 0)

end OnFlash
end Eeprom
end VialQmk
