import VialQmk.Hid.QmkSettings
import VialQmk.Lib.Pages

/-!
# Hid.SettingsQuery

The ids of the settings in pages: a host asks `qmk_settings_query` again and again, each time for what is greater
than the last id of the answer before.

* `page_words`: the buffer of an answer holds the ids of a page, and 0xFFFF behind them.
* `settings_query_lists`: the answers of all calls together are the ids of the table in order, and 0xFFFF.
-/

namespace VialQmk
namespace Hid

open Lib Eeprom

def queryTable (table : List QmkSettingsProto) (qsidGt : UInt16) (ram : Ram) (buffer sz : Nat) : Ram :=
  qmkSettingsQuery.go qsidGt buffer sz table 0 (ram.writeBlock buffer (List.replicate sz 0xFF))

def tableIds (table : List QmkSettingsProto) : List UInt16 := table.map QmkSettingsProto.qsid

def answerWords (ram : Ram) (buffer : Nat) (n : Nat) : List UInt16 :=
  (List.range n).map fun k => beWord (ram (buffer + 2 * k + 1)) (ram (buffer + 2 * k))

/-- The ids that the calls of a host return, up to the first 0xFFFF, which is the last entry of the list; `none` where
the calls have not come to it. Each call finds the memory in a state of its own. -/
def listSettings (table : List QmkSettingsProto) (buffer sz : Nat) (rams : Nat → Ram) :
    Nat → UInt16 → Option (List UInt16)
  | 0, _ => none
  | calls + 1, qsidGt =>
    let words := answerWords (queryTable table qsidGt (rams calls) buffer sz) buffer (sz / 2)
    let ids := words.takeWhile fun id => id != 0xFFFF
    if ids.length < words.length then some (ids ++ [0xFFFF])
    else (listSettings table buffer sz rams calls (words.getLast?.getD qsidGt)).map fun rest => ids ++ rest

section Answer

variable {table : List QmkSettingsProto} {qsidGt : UInt16} {ram : Ram} {buffer sz bufferOffset : Nat}

def idBytes (ids : List UInt16) : List UInt8 := ids.flatMap fun id => [loByte id, hiByte id]

theorem idBytes_cons (id : UInt16) (ids : List UInt16) :
    idBytes (id :: ids) = [loByte id, hiByte id] ++ idBytes ids := rfl

theorem go_eq (table : List QmkSettingsProto) : ∀ (bufferOffset : Nat) (ram : Ram),
    qmkSettingsQuery.go qsidGt buffer sz table bufferOffset ram =
      ram.writeBlock (buffer + bufferOffset) (idBytes (page (tableIds table) ((sz - bufferOffset) / 2) qsidGt)) := by
  induction table with
  | nil =>
    intro bufferOffset ram
    rw [tableIds, List.map_nil, page_nil]
    rfl
  | cons p table ih =>
    intro bufferOffset ram
    rw [qmkSettingsQuery.go, tableIds, List.map_cons, ← tableIds]
    by_cases hfull : bufferOffset + 2 > sz
    · rw [if_pos hfull, show (sz - bufferOffset) / 2 = 0 by omega, page_zero]
      rfl
    · rw [if_neg hfull]
      by_cases hgt : p.qsid > qsidGt
      · rw [if_pos hgt, ih, show (sz - bufferOffset) / 2 = (sz - (bufferOffset + 2)) / 2 + 1 by omega,
          page_cons_of_lt hgt, idBytes_cons, Mem.writeBlock_append]
        rfl
      · rw [if_neg hgt, ih, page_cons_of_not_lt hgt]

theorem queryTable_apply {i : Nat} (hi : i < sz) :
    queryTable table qsidGt ram buffer sz (buffer + i) =
      (idBytes (page (tableIds table) (sz / 2) qsidGt)).getD i 0xFF := by
  rw [queryTable, go_eq, Nat.add_zero, Nat.sub_zero, Mem.writeBlock_apply, if_pos (Nat.le_add_right _ _),
    Nat.add_sub_cancel_left, Mem.writeBlock_of_mem (by simpa using hi), List.getElem_replicate]

theorem idBytes_getD (ids : List UInt16) : ∀ k : Nat,
    beWord ((idBytes ids).getD (2 * k + 1) 0xFF) ((idBytes ids).getD (2 * k) 0xFF) = ids.getD k 0xFFFF := by
  induction ids with
  | nil =>
    intro k
    rw [idBytes, List.flatMap_nil, List.getD_nil, List.getD_nil, List.getD_nil]
    decide
  | cons id ids ih =>
    intro k
    cases k with
    | zero => exact beWord_hiByte_loByte id
    | succ k => exact ih k

theorem page_words (table : List QmkSettingsProto) (qsidGt : UInt16) (ram : Ram) (buffer sz : Nat) :
    answerWords (queryTable table qsidGt ram buffer sz) buffer (sz / 2) =
      page (tableIds table) (sz / 2) qsidGt ++
        List.replicate (sz / 2 - (page (tableIds table) (sz / 2) qsidGt).length) 0xFFFF := by
  have hlength := length_page_le (tableIds table) (sz / 2) qsidGt
  apply List.ext_getElem
  · rw [answerWords, List.length_map, List.length_range, List.length_append, List.length_replicate]
    omega
  · intro k hk _
    rw [answerWords, List.length_map, List.length_range] at hk
    simp only [answerWords, List.getElem_map, List.getElem_range]
    rw [Nat.add_assoc, queryTable_apply (by omega), queryTable_apply (by omega), idBytes_getD]
    by_cases hpage : k < (page (tableIds table) (sz / 2) qsidGt).length
    · rw [List.getElem_append_left hpage, List.getD_eq_getElem _ _ hpage]
    · rw [List.getElem_append_right (Nat.le_of_not_lt hpage), List.getElem_replicate,
        List.getD_eq_default _ _ (Nat.le_of_not_lt hpage)]

end Answer

section Run

variable {table : List QmkSettingsProto} {sz : Nat}

theorem takeWhile_page {ids : List UInt16} (h : 0xFFFF ∉ ids) (m : Nat) :
    (ids ++ List.replicate m 0xFFFF).takeWhile (fun id => id != 0xFFFF) = ids := by
  rw [List.takeWhile_append_of_pos]
  · cases m with
    | zero => simp
    | succ m => simp [List.replicate_succ]
  · intro id hid
    have hne : id ≠ 0xFFFF := fun heq => h (heq ▸ hid)
    simpa using hne

theorem listSettings_above (hsorted : (tableIds table).Pairwise (· < ·)) (hend : 0xFFFF ∉ tableIds table) (hsz : 2 ≤ sz)
    (buffer : Nat) (rams : Nat → Ram) : ∀ (calls : Nat) (qsidGt : UInt16),
    ((tableIds table).filter fun id => qsidGt < id).length < calls →
      listSettings table buffer sz rams calls qsidGt =
        some (((tableIds table).filter fun id => qsidGt < id) ++ [0xFFFF]) := by
  intro calls
  induction calls with
  | zero => exact fun _ h => absurd h (Nat.not_lt_zero _)
  | succ calls ih =>
    intro qsidGt hcalls
    have hlength := length_page_le (tableIds table) (sz / 2) qsidGt
    have hnot : 0xFFFF ∉ page (tableIds table) (sz / 2) qsidGt := fun h => hend (mem_of_mem_page h).1
    rw [listSettings]
    simp only [page_words, takeWhile_page hnot, List.length_append, List.length_replicate]
    by_cases hfull : (page (tableIds table) (sz / 2) qsidGt).length < sz / 2
    · rw [if_pos (by omega), page_eq_of_lt hfull]
    · have hzero : sz / 2 - (page (tableIds table) (sz / 2) qsidGt).length = 0 := by omega
      have hne : page (tableIds table) (sz / 2) qsidGt ≠ [] := by
        intro hnil
        rw [hnil, List.length_nil] at hfull
        omega
      obtain ⟨last, hlast⟩ := Option.ne_none_iff_exists'.mp (mt List.getLast?_eq_none_iff.mp hne)
      have hsplit := page_append hsorted hlast
      have hfewer := congrArg List.length hsplit
      rw [List.length_append] at hfewer
      have hpos := List.length_pos_of_ne_nil hne
      rw [if_neg (by omega), hzero, List.replicate_zero, List.append_nil, hlast, Option.getD_some, ih last (by omega),
        Option.map_some, hsplit, List.append_assoc]

/-- Whatever the size of the buffer is, the host gets each id of the table but 0 once and in order, and 0xFFFF behind
them. It starts from 0, and what it gets is greater than that. -/
theorem settings_query_lists (table : List QmkSettingsProto) (hsorted : (tableIds table).Pairwise (· < ·))
    (hend : 0xFFFF ∉ tableIds table) (buffer sz : Nat) (hsz : 2 ≤ sz) (rams : Nat → Ram) (calls : Nat)
    (hcalls : table.length < calls) :
    listSettings table buffer sz rams calls 0 = some (((tableIds table).filter fun id => id ≠ 0) ++ [0xFFFF]) := by
  have hfilter : ((tableIds table).filter fun id => id ≠ 0) = (tableIds table).filter fun id => 0 < id := by
    apply List.filter_congr
    intro id _
    rw [decide_eq_decide]
    exact UInt16.pos_iff_ne_zero.symm
  have hfew : ((tableIds table).filter fun id => 0 < id).length < calls := by
    refine Nat.lt_of_le_of_lt (List.length_filter_le _ _) ?_
    rwa [tableIds, List.length_map]
  rw [hfilter]
  exact listSettings_above hsorted hend hsz buffer rams calls 0 hfew

end Run

def plainDefaults : SettingDefaults where
  mousekey := false
  autoShiftTimeout := 175
  oneshotTapToggle := 5
  oneshotTimeout := 5000
  mousekeys := Vector.replicate 9 0
  comboTerm := 50
  tappingTerm := 200
  tapCodeDelay := 0
  tapHoldCapsDelay := 80
  tappingToggle := 5

/-- Twelve settings, three in a page. -/
theorem settings_query_lists_three :
    listSettings (protos plainDefaults) 0 6 (fun _ _ => 0) 13 0 =
      some [1, 2, 3, 4, 5, 6, 7, 8, 18, 19, 20, 21, 0xFFFF] := by
  rw [settings_query_lists (protos plainDefaults) (by decide) (by decide) 0 6 (by decide) (fun _ _ => 0) 13 (by decide)]
  decide

/-- No value to start from is less than 0. -/
theorem settings_query_misses_zero :
    (tableIds [⟨0, .magic⟩]).Pairwise (· < ·) ∧ 0xFFFF ∉ tableIds [⟨0, .magic⟩] ∧
      ∀ qsidGt, listSettings [⟨0, .magic⟩] 0 32 (fun _ _ => 0) 2 qsidGt = some [0xFFFF] := by
  refine ⟨by decide, by decide, fun qsidGt => ?_⟩
  have hnone : (tableIds [⟨0, .magic⟩]).filter (fun id => qsidGt < id) = [] := by
    rw [tableIds, List.map_cons, List.map_nil, List.filter_cons_of_neg (by simp), List.filter_nil]
  rw [listSettings_above (by decide) (by decide) (by decide) 0 _ 2 qsidGt (by rw [hnone]; decide), hnone]
  rfl

end Hid
end VialQmk
