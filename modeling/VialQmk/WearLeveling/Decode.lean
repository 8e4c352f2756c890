import VialQmk.WearLeveling.Playback

/-!
# WearLeveling.Decode

Encoder against decoder: what playback makes of an entry of `wear_leveling_write_raw` of which only
the first words are in the store. `replayOf` is that effect; with all words there it is the data
itself (`replayOf_full`), so that the round trip and the torn entry are one theorem
(`playStep_nextEntry`).
-/

namespace VialQmk
namespace WearLeveling

open Lib

/-- The address field has 19 bits: the documented maximum of the logical size. -/
def maxLogicalSize : Nat := 524288

/-- The first `j` words of an entry at `w`, and zeros up to its end. -/
def Image (cfg : Config) (e : LogEntry) (j : Nat) (m : Mem UInt8) (w : Nat) : Prop :=
  ∀ i, i < e.words * cfg.writeSize → m (w + i) = if i < j * cfg.writeSize then e.raw8.getD i 0 else 0

/-- What playback writes, and where, when only `j` words of the entry are stored. -/
def replayOf (cfg : Config) (address : Nat) (p : List UInt8) (j : Nat) : Nat × List UInt8 :=
  let e := nextEntry cfg address p
  let a := address % maxLogicalSize
  if e.words ≤ j then (a, p.take e.consumed)
  else
    (if 2 < j * cfg.writeSize then a else a - a % 256,
      (p.take e.consumed).take (j * cfg.writeSize - 3) ++
        List.replicate (e.consumed - (j * cfg.writeSize - 3)) 0)

theorem replayOf_full (cfg : Config) {address : Nat} (ha : address < maxLogicalSize)
    (p : List UInt8) :
    replayOf cfg address p (nextEntry cfg address p).words =
      (address, p.take (nextEntry cfg address p).consumed) := by
  simp [replayOf, Nat.mod_eq_of_lt ha]

section Multibyte

variable {cfg : Config} {address : Nat} {chunk : List UInt8}

theorem makeMultibyte_data {i : Nat} (h : i < chunk.length) :
    (logEntryMakeMultibyte address chunk).getD (3 + i) 0 = chunk[i] := by
  rw [logEntryMakeMultibyte, List.append_assoc, List.getD_append_right _ _ _ _ (by simp),
    List.getD_append _ _ _ _ (by simpa using h)]
  simp [h]

theorem multibyte_getters {log : Raw8} (hl : 0 < chunk.length) (hl5 : chunk.length ≤ 5)
    {a : Nat} (ha : address % maxLogicalSize = a) (third : Bool)
    (h₀ : log 0 = (logEntryMakeMultibyte address chunk).getD 0 0)
    (h₁ : log 1 = (logEntryMakeMultibyte address chunk).getD 1 0)
    (h₂ : log 2 = if third then (logEntryMakeMultibyte address chunk).getD 2 0 else 0) :
    log 0 ≠ 0 ∧ logEntryGetType log = 0 ∧ logEntryMultibyteGetLength log = chunk.length ∧
      logEntryMultibyteGetAddress log = if third then a else a - a % 256 := by
  have e₀ : (log 0).toNat = chunk.length * 8 + address / 65536 % 8 := by
    rw [h₀]
    simp only [logEntryMakeMultibyte, List.cons_append, List.getD_cons_zero]
    simp
    omega
  have e₁ : (log 1).toNat = address / 256 % 256 := by
    rw [h₁]
    simp [logEntryMakeMultibyte]
  have e₂ : (log 2).toNat = if third then address % 256 else 0 := by
    rw [h₂]
    cases third <;> simp [logEntryMakeMultibyte]
  simp only [maxLogicalSize] at ha
  refine ⟨?_, ?_, ?_, ?_⟩
  · intro hz
    rw [hz] at e₀
    simp at e₀
    omega
  · rw [logEntryGetType, e₀]
    omega
  · rw [logEntryMultibyteGetLength, e₀]
    omega
  · rw [logEntryMultibyteGetAddress, e₀, e₁, e₂]
    cases third <;> simp <;> omega

end Multibyte

section Decode

variable {cfg : Config} {drv : Driver} {m : Mem UInt8} {w address j : Nat} {p : List UInt8} {c : Cache}

theorem readBlock_image {words n l : Nat} {chunk : List UInt8} (hlen : chunk.length = l)
    (hbytes : 3 + l ≤ words * cfg.writeSize)
    (himg : ∀ i, i < words * cfg.writeSize → m (w + i) =
      if i < n then (logEntryMakeMultibyte address chunk).getD i 0 else 0) :
    m.readBlock (w + 3) l = chunk.take (n - 3) ++ List.replicate (l - (n - 3)) 0 := by
  refine List.ext_getElem (by simp; omega) fun i h₁ h₂ => ?_
  have hi : i < l := by simpa using h₁
  rw [Mem.readBlock_getElem, Nat.add_assoc, himg _ (by omega)]
  by_cases hn : 3 + i < n
  · rw [if_pos hn, makeMultibyte_data (by omega), List.getElem_append_left (by simp; omega),
      List.getElem_take]
  · rw [if_neg hn, List.getElem_append_right (by simp; omega), List.getElem_replicate]

theorem playStep_multibyteEntry (hread : ∀ a, drv.readOk a = true) (hp : p ≠ [])
    (hfit : address + p.length ≤ cfg.logicalSize) {a : Nat} (ha : address % maxLogicalSize = a)
    (hj : 0 < j) (himg : Image cfg (multibyteEntry cfg address p) j m w) :
    playStep cfg drv m w c =
      .next (w + (multibyteEntry cfg address p).words * cfg.writeSize)
        (c.writeBlock (if 2 < j * cfg.writeSize then a else a - a % 256)
          ((p.take (multibyteEntry cfg address p).consumed).take (j * cfg.writeSize - 3) ++
            List.replicate ((multibyteEntry cfg address p).consumed - (j * cfg.writeSize - 3)) 0)) := by
  have hpos := List.length_pos_iff.mpr hp
  obtain ⟨l, hl⟩ : ∃ l, (if p.length ≥ logEntryMultibyteMaxBytes then logEntryMultibyteMaxBytes
    else p.length) = l := ⟨_, rfl⟩
  have hl0 : 0 < l ∧ l ≤ 5 ∧ l ≤ p.length := hl ▸ multibyteEntry_consumed cfg address hp
  have hlen : (p.take l).length = l := by simp; omega
  have he : multibyteEntry cfg address p =
      ⟨logEntryMakeMultibyte address (p.take l), cfg.multibyteWords l, l⟩ := by
    simp only [multibyteEntry, hl]
  rw [he] at himg ⊢
  have hws : 2 ≤ cfg.writeSize := by
    rcases cfg.writeSize_cases with h | h | h <;> omega
  have hjws : 2 ≤ j * cfg.writeSize := Nat.le_trans hws (Nat.le_mul_of_pos_left _ hj)
  have hbytes := cfg.multibyteWords_bytes hl0.2.1
  have hi : ∀ i, i < 3 → entryAt m w i =
      if i < j * cfg.writeSize then (logEntryMakeMultibyte address (p.take l)).getD i 0 else 0 :=
    fun i hi => himg i (by dsimp only; omega)
  have h₀ := hi 0 (by omega)
  have h₁ := hi 1 (by omega)
  have h₂ := hi 2 (by omega)
  rw [if_pos (by omega)] at h₀ h₁
  obtain ⟨g₁, g₂, g₃, g₄⟩ := multibyte_getters (by omega) (by omega) ha
    (decide (2 < j * cfg.writeSize)) h₀ h₁ (by simpa using h₂)
  rw [hlen] at g₃
  have hle : a ≤ address := ha ▸ Nat.mod_le _ _
  have haddr : (if 2 < j * cfg.writeSize then a else a - a % 256) ≤ address := by
    split <;> omega
  have g₄ : logEntryMultibyteGetAddress (entryAt m w) =
      if 2 < j * cfg.writeSize then a else a - a % 256 := by
    simpa using g₄
  have g₁ : m w ≠ 0 := g₁
  rw [playStep_multibyte hread (not_blank_of_ne cfg g₁) g₂ (by rw [g₃]; exact hl0.2.1) (by rw [g₃, g₄]; omega), g₃, g₄,
    readBlock_image hlen hbytes himg]

theorem playStep_word01Entry (hread : ∀ a, drv.readOk a = true) {v : Nat} (hv : v = 0 ∨ v = 1)
    (hws : cfg.writeSize = 2) (heven : address % 2 = 0) (ha : address < 16384)
    (hfit : address + 2 ≤ cfg.logicalSize)
    (himg : Image cfg ⟨logEntryMakeWord01 address v, 1, 2⟩ 1 m w) :
    playStep cfg drv m w c = .next (w + cfg.writeSize) (c.writeBlock address [v.toUInt8, 0]) := by
  have h₀ : entryAt m w 0 = (logEntryMakeWord01 address v).getD 0 0 :=
    (himg 0 (by simp [hws])).trans (if_pos (by omega))
  have h₁ : entryAt m w 1 = (logEntryMakeWord01 address v).getD 1 0 :=
    (himg 1 (by simp [hws])).trans (if_pos (by omega))
  have e₀ : (entryAt m w 0).toNat = 128 + v * 32 + address / 512 := by
    rw [h₀]
    rcases hv with rfl | rfl <;> simp [logEntryMakeWord01] <;> omega
  have e₁ : (entryAt m w 1).toNat = address / 2 % 256 := by
    rw [h₁]
    simp [logEntryMakeWord01]
  have hne : m w ≠ 0 := by
    intro hz
    have e₀ : (m w).toNat = _ := e₀
    rw [hz] at e₀
    simp at e₀
    omega
  have ht : logEntryGetType (entryAt m w) = 2 := by
    rw [logEntryGetType, e₀]
    omega
  have hga : logEntryWord01GetAddress (entryAt m w) = address := by
    rw [logEntryWord01GetAddress, e₀, e₁]
    omega
  have hgv : logEntryWord01GetValue (entryAt m w) = v.toUInt8 := by
    rw [logEntryWord01GetValue, e₀]
    congr 1
    omega
  rw [playStep_word01 hread (not_blank_of_ne cfg hne) hws ht (by rw [hga]; omega), hga, hgv]

theorem playStep_optimized64Entry (hread : ∀ a, drv.readOk a = true) {v : UInt8}
    (hws : cfg.writeSize = 2) (ha : address < 64) (hfit : address + 1 ≤ cfg.logicalSize)
    (himg : Image cfg ⟨logEntryMakeOptimized64 address v, 1, 1⟩ 1 m w) :
    playStep cfg drv m w c = .next (w + cfg.writeSize) (c.writeBlock address [v]) := by
  have h₀ : entryAt m w 0 = (logEntryMakeOptimized64 address v).getD 0 0 :=
    (himg 0 (by simp [hws])).trans (if_pos (by omega))
  have h₁ : entryAt m w 1 = v := (himg 1 (by simp [hws])).trans (if_pos (by omega))
  have e₀ : (entryAt m w 0).toNat = 64 + address := by
    rw [h₀]
    simp [logEntryMakeOptimized64]
    omega
  have hne : m w ≠ 0 := by
    intro hz
    have e₀ : (m w).toNat = _ := e₀
    rw [hz] at e₀
    simp at e₀
    omega
  have ht : logEntryGetType (entryAt m w) = 1 := by
    rw [logEntryGetType, e₀]
    omega
  have hga : logEntryOptimized64GetAddress (entryAt m w) = address := by
    rw [logEntryOptimized64GetAddress, e₀]
    omega
  rw [playStep_optimized64 hread (not_blank_of_ne cfg hne) hws ht (by rw [hga]; omega), hga, logEntryOptimized64GetValue,
    h₁]

theorem multibyteEntry_full (hp : p ≠ []) (hj : (multibyteEntry cfg address p).words ≤ j) :
    3 + (multibyteEntry cfg address p).consumed ≤ j * cfg.writeSize ∧
      (p.take (multibyteEntry cfg address p).consumed).length =
        (multibyteEntry cfg address p).consumed ∧ 0 < (multibyteEntry cfg address p).consumed := by
  have hle := multibyteEntry_consumed cfg address hp
  have hbytes := cfg.multibyteWords_bytes hle.2.1
  have hmul := Nat.mul_le_mul_right cfg.writeSize hj
  have hw : (multibyteEntry cfg address p).words =
      cfg.multibyteWords (multibyteEntry cfg address p).consumed := rfl
  rw [hw] at hmul
  refine ⟨by omega, ?_, hle.1⟩
  rw [List.length_take]
  omega

theorem playStep_nextEntry (hread : ∀ a, drv.readOk a = true) (hp : p ≠ [])
    (hfit : address + p.length ≤ cfg.logicalSize)
    (hj : 0 < j) (hj' : j ≤ (nextEntry cfg address p).words)
    (himg : Image cfg (nextEntry cfg address p) j m w) :
    playStep cfg drv m w c =
      .next (w + (nextEntry cfg address p).words * cfg.writeSize)
        (c.writeBlock (replayOf cfg address p j).1 (replayOf cfg address p j).2) := by
  have hpos := List.length_pos_iff.mpr hp
  by_cases h01 : cfg.writeSize = 2 ∧ p.length ≥ 2 ∧ address % 2 = 0 ∧ address < 16384 ∧
      ((p.getD 1 0).toNat * 256 + (p.getD 0 0).toNat = 0 ∨
        (p.getD 1 0).toNat * 256 + (p.getD 0 0).toNat = 1)
  · have he : nextEntry cfg address p =
        ⟨logEntryMakeWord01 address ((p.getD 1 0).toNat * 256 + (p.getD 0 0).toNat), 1, 2⟩ := by
      simp only [nextEntry, if_pos h01]
    obtain ⟨hws, hlen, heven, ha, hv⟩ := h01
    rw [he] at himg hj'
    have hj1 : j = 1 := by dsimp only at hj'; omega
    subst hj1
    obtain ⟨x, p', rfl⟩ := List.exists_cons_of_ne_nil hp
    have hp' : p' ≠ [] := by
      rintro rfl
      simp at hlen
    obtain ⟨y, rest, rfl⟩ := List.exists_cons_of_ne_nil hp'
    simp only [List.getD_cons_zero, List.getD_cons_succ] at hv he himg
    have hy : y.toNat = 0 := by omega
    have hy : y = 0 := UInt8.toNat_inj.mp hy
    subst hy
    have hx : ((0 : UInt8).toNat * 256 + x.toNat).toUInt8 = x := by simp
    have hmod : address % maxLogicalSize = address :=
      Nat.mod_eq_of_lt (Nat.lt_trans ha (by decide))
    rw [playStep_word01Entry hread hv hws heven ha (by simp at hfit; omega) himg, hx]
    simp [replayOf, he, hmod]
  by_cases h64 : cfg.writeSize = 2 ∧ address < 64
  · have he : nextEntry cfg address p = ⟨logEntryMakeOptimized64 address (p.getD 0 0), 1, 1⟩ := by
      simp only [nextEntry, if_neg h01, if_pos h64]
    rw [he] at himg hj'
    have hj1 : j = 1 := by dsimp only at hj'; omega
    subst hj1
    rw [playStep_optimized64Entry hread h64.1 h64.2 (by omega) himg]
    have hmod : address % maxLogicalSize = address :=
      Nat.mod_eq_of_lt (Nat.lt_trans h64.2 (by decide))
    obtain ⟨x, rest, rfl⟩ := List.exists_cons_of_ne_nil hp
    simp [replayOf, he, hmod]
  · have he : nextEntry cfg address p = multibyteEntry cfg address p := by
      simp only [nextEntry, if_neg h01, if_neg h64]
    rw [he] at himg hj' ⊢
    rw [playStep_multibyteEntry hread hp hfit rfl hj himg, replayOf, he]
    by_cases hfull : (multibyteEntry cfg address p).words ≤ j
    · obtain ⟨h3, htake, hpos'⟩ := multibyteEntry_full hp hfull
      rw [if_pos (by omega), List.take_of_length_le (by omega),
        show (multibyteEntry cfg address p).consumed - (j * cfg.writeSize - 3) = 0 by omega]
      simp [hfull]
    · simp only [if_neg hfull]

end Decode
end WearLeveling
end VialQmk
