import VialQmk.Lib.Log
import VialQmk.WearLeveling.Model

/-!
# WearLeveling.Playback

The playback loop as the replay of a log. `reader` is one round of the loop; it looks at the bytes of
its own entry only, so that what the store holds behind the entry does not matter.

* `playLoop_of_plays`: the loop follows any replay of the log.
* `playStep_multibyte`, `playStep_optimized64`, `playStep_word01`: what one round reads, by type.
-/

namespace VialQmk
namespace WearLeveling

open Lib

section Read

variable {cfg : Config} {drv : Driver} {m m' : Mem UInt8}

variable {a b : Nat} {c d : Cache}

theorem backingStoreRead_local {v : List UInt8} (h : backingStoreRead cfg drv m a = some v)
    (hm : ∀ x, a ≤ x → x < a + cfg.writeSize → m' x = m x) : backingStoreRead cfg drv m' a = some v := by
  unfold backingStoreRead at h ⊢
  split at h
  · rename_i hr
    rw [if_pos hr]
    cases h
    exact congrArg some (Mem.readBlock_congr fun i hi => hm _ (by omega) (by omega))
  · cases h

theorem readWord_le {cond : Prop} [Decidable cond] {k : Nat} {r r' : Nat × Raw8}
    (h : readWord cfg drv m cond k r = some r') : r.1 ≤ r'.1 := by
  unfold readWord at h
  split at h
  · split at h
    · cases h
    · cases h
      simp
  · cases h
    exact Nat.le_refl _

theorem readWord_local {cond : Prop} [Decidable cond] {k : Nat} {r r' : Nat × Raw8}
    (h : readWord cfg drv m cond k r = some r') (hm : ∀ x, r.1 ≤ x → x < r'.1 → m' x = m x) :
    readWord cfg drv m' cond k r = some r' := by
  unfold readWord at h ⊢
  split at h
  · rename_i hc
    rw [if_pos hc]
    split at h
    · cases h
    · rename_i v hv
      cases h
      rw [backingStoreRead_local hv hm]
  · rename_i hc
    rw [if_neg hc]
    exact h

theorem playMultibyte_next_iff {log : Raw8} : playMultibyte cfg drv m a log c = .next b d ↔
      ∃ r₁ r₂ r₃ r₄ : Nat × Raw8,
        readWord cfg drv m (cfg.writeSize = 2) 1 (a, log) = some r₁ ∧
        ¬ logEntryMultibyteGetAddress r₁.2 + logEntryMultibyteGetLength r₁.2 > cfg.logicalSize ∧
        readWord cfg drv m (cfg.writeSize = 2 ∧ logEntryMultibyteGetLength r₁.2 > 1) 2 r₁ = some r₂ ∧
        readWord cfg drv m (cfg.writeSize = 2 ∧ logEntryMultibyteGetLength r₁.2 > 3) 3 r₂ = some r₃ ∧
        readWord cfg drv m (cfg.writeSize = 4 ∧ logEntryMultibyteGetLength r₁.2 > 1) 1 r₃ = some r₄ ∧
        r₄.1 = b ∧
        c.writeBlock (logEntryMultibyteGetAddress r₁.2)
          (r₄.2.readBlock 3 (logEntryMultibyteGetLength r₁.2)) = d := by
  constructor
  · intro h
    unfold playMultibyte at h
    split at h
    · cases h
    · rename_i a₁ log₁ h₁
      dsimp only at h
      split at h
      · cases h
      · rename_i hfit
        split at h
        · cases h
        · rename_i a₂ log₂ h₂
          split at h
          · cases h
          · rename_i a₃ log₃ h₃
            split at h
            · cases h
            · rename_i a₄ log₄ h₄
              cases h
              exact ⟨_, _, _, _, h₁, hfit, h₂, h₃, h₄, rfl, rfl⟩
  · rintro ⟨r₁, r₂, r₃, r₄, h₁, hfit, h₂, h₃, h₄, rfl, rfl⟩
    simp only [playMultibyte, h₁, if_neg hfit, h₂, h₃, h₄]

theorem playMultibyte_le {log : Raw8} (h : playMultibyte cfg drv m a log c = .next b d) : a ≤ b := by
  obtain ⟨r₁, r₂, r₃, r₄, h₁, -, h₂, h₃, h₄, rfl, -⟩ := playMultibyte_next_iff.mp h
  calc
    a ≤ r₁.1 := readWord_le h₁
    _ ≤ r₂.1 := readWord_le h₂
    _ ≤ r₃.1 := readWord_le h₃
    _ ≤ r₄.1 := readWord_le h₄

theorem playMultibyte_local {log : Raw8} (h : playMultibyte cfg drv m a log c = .next b d)
    (hm : ∀ x, a ≤ x → x < b → m' x = m x) : playMultibyte cfg drv m' a log c = .next b d := by
  obtain ⟨r₁, r₂, r₃, r₄, h₁, hfit, h₂, h₃, h₄, rfl, rfl⟩ := playMultibyte_next_iff.mp h
  have e₁ : a ≤ r₁.1 := readWord_le h₁
  have e₂ := readWord_le h₂
  have e₃ := readWord_le h₃
  have e₄ := readWord_le h₄
  refine playMultibyte_next_iff.mpr ⟨r₁, r₂, r₃, r₄, ?_, hfit, ?_, ?_, ?_, rfl, rfl⟩
  · exact readWord_local h₁ fun x hx hx' => hm x hx (by omega)
  · exact readWord_local h₂ fun x hx hx' => hm x (by omega) (by omega)
  · exact readWord_local h₃ fun x hx hx' => hm x (by omega) (by omega)
  · exact readWord_local h₄ fun x hx hx' => hm x (by omega) hx'

theorem writeSize_pos (cfg : Config) : 0 < cfg.writeSize := by
  rcases cfg.writeSize_cases with h | h | h <;> omega

/-- A round that goes on has read a word that is not blank. Its entry is a multibyte one, or the word is all of it. -/
theorem playStep_next (h : playStep cfg drv m a c = .next b d) :
    ∃ v, backingStoreRead cfg drv m a = some v ∧ ¬ v.all (· = 0) = true ∧
      (logEntryGetType (drv.stack.writeBlock 0 v) = 0 ∧
          playMultibyte cfg drv m (a + cfg.writeSize) (drv.stack.writeBlock 0 v) c = .next b d ∨
        logEntryGetType (drv.stack.writeBlock 0 v) ≠ 0 ∧ a + cfg.writeSize = b ∧
          ∃ x data, x + data.length ≤ cfg.logicalSize ∧ c.writeBlock x data = d) := by
  unfold playStep at h
  split at h
  · cases h
  · rename_i v hv
    split at h
    · cases h
    · rename_i hzero
      refine ⟨v, hv, hzero, ?_⟩
      dsimp only at h
      split at h
      · exact .inl ⟨‹_›, h⟩
      · refine .inr ⟨‹_›, ?_⟩
        split at h
        · unfold playOptimized64 at h
          dsimp only at h
          split at h <;> cases h
          exact ⟨rfl, _, _, by simp; omega, rfl⟩
        · split at h
          · unfold playWord01 at h
            dsimp only at h
            split at h <;> cases h
            exact ⟨rfl, _, _, by simp; omega, rfl⟩
          · cases h

theorem playStep_word_le (h : playStep cfg drv m a c = .next b d) : a + cfg.writeSize ≤ b := by
  obtain ⟨v, -, -, ⟨-, hplay⟩ | ⟨-, rfl, -⟩⟩ := playStep_next h
  · exact playMultibyte_le hplay
  · exact Nat.le_refl _

theorem playStep_lt (h : playStep cfg drv m a c = .next b d) : a < b :=
  Nat.lt_of_lt_of_le (Nat.lt_add_of_pos_right (writeSize_pos cfg)) (playStep_word_le h)

theorem playStep_local (h : playStep cfg drv m a c = .next b d) (hm : ∀ x, a ≤ x → x < b → m' x = m x) :
    playStep cfg drv m' a c = .next b d := by
  have hfirst := playStep_word_le h
  obtain ⟨v, hv, hzero, hentry⟩ := playStep_next h
  have hv' : backingStoreRead cfg drv m' a = some v :=
    backingStoreRead_local hv fun x hx hx' => hm x hx (by omega)
  rcases hentry with ⟨htype, hplay⟩ | ⟨htype, -⟩
  · simp only [playStep, hv', if_neg hzero, if_pos htype]
    exact playMultibyte_local hplay fun x hx hx' => hm x (by omega) hx'
  · simp only [playStep, hv, if_neg hzero, if_neg htype] at h
    simp only [playStep, hv', if_neg hzero, if_neg htype]
    exact h

end Read

def reader (cfg : Config) (drv : Driver) : LogReader UInt8 Cache where
  step m a c :=
    if a < cfg.backingSize then
      match playStep cfg drv m a c with
      | .next b d => some (b, d)
      | .stop _ _ => none
    else none
  step_lt h := by
    split at h
    · split at h
      · rename_i hs
        cases h
        exact playStep_lt hs
      · cases h
    · cases h
  step_local h hm := by
    split at h
    · rename_i ha
      split at h
      · rename_i hs
        cases h
        rw [if_pos ha, playStep_local hs hm]
      · cases h
    · cases h

section Loop

variable {cfg : Config} {drv : Driver} {m : Mem UInt8} {a b : Nat} {c d : Cache}

theorem reader_step_of_next (ha : a < cfg.backingSize) (h : playStep cfg drv m a c = .next b d) :
    (reader cfg drv).step m a c = some (b, d) := by
  simp only [reader, if_pos ha, h]

theorem playStep_of_reader_step (h : (reader cfg drv).step m a c = some (b, d)) :
    a < cfg.backingSize ∧ playStep cfg drv m a c = .next b d := by
  simp only [reader] at h
  split at h
  · rename_i ha
    split at h
    · rename_i hs
      cases h
      exact ⟨ha, hs⟩
    · cases h
  · cases h

/-- The loop follows a replay of the log, and goes on from its end with fuel enough for the rest. -/
theorem playLoop_of_plays (h : (reader cfg drv).Plays m a c b d) :
    ∀ fuel, cfg.backingSize - a ≤ fuel → ∃ fuel', cfg.backingSize - b ≤ fuel' ∧
      playLoop cfg drv m fuel a c = playLoop cfg drv m fuel' b d := by
  induction h with
  | nil => exact fun fuel hf => ⟨fuel, hf, rfl⟩
  | cons hs _ ih =>
    rename_i a b e c d f _
    intro fuel hf
    obtain ⟨ha, hstep⟩ := playStep_of_reader_step hs
    have hlt := playStep_lt hstep
    cases fuel with
    | zero => omega
    | succ fuel =>
      obtain ⟨fuel', hf', he⟩ := ih fuel (by omega)
      refine ⟨fuel', hf', ?_⟩
      rw [playLoop, if_pos ha, hstep]
      exact he

theorem playStep_blank (hread : drv.readOk a = true) (hz : ∀ x, a ≤ x → m x = 0) :
    playStep cfg drv m a c = .stop .success a := by
  have hv : (m.readBlock a cfg.writeSize).all (· = 0) = true := by
    rw [List.all_eq_true]
    intro v hv
    obtain ⟨i, hi, rfl⟩ := List.getElem_of_mem hv
    rw [Mem.readBlock_getElem, hz _ (by omega)]
    rfl
  rw [playStep, backingStoreRead, if_pos hread]
  dsimp only
  rw [if_pos hv]

theorem playLoop_end (hread : drv.readOk a = true)
    (hz : a < cfg.backingSize → ∀ x, a ≤ x → m x = 0) (fuel : Nat) :
    playLoop cfg drv m fuel a c = (.success, a, c) := by
  cases fuel with
  | zero => rfl
  | succ fuel =>
    rw [playLoop]
    split
    · rename_i ha
      rw [playStep_blank hread (hz ha)]
    · rfl

end Loop

/-- The first `n` bytes of the entry in memory at `w` are in `log`. -/
def Holds (m : Mem UInt8) (w n : Nat) (log : Raw8) : Prop := ∀ i, i < n → log i = m (w + i)

section Holds

variable {cfg : Config} {drv : Driver} {m : Mem UInt8} {w n k : Nat} {log : Raw8}

theorem Holds.first (stack : Raw8) (n : Nat) :
    Holds m w n (stack.writeBlock 0 (m.readBlock w n)) := by
  intro i hi
  rw [Mem.writeBlock_apply, if_pos (Nat.zero_le _), Nat.sub_zero,
    List.getD_eq_getElem _ _ (by simpa using hi), Mem.readBlock_getElem]

theorem Holds.next (h : Holds m w n log) (s : Nat) :
    Holds m w (n + s) (log.writeBlock n (m.readBlock (w + n) s)) := by
  intro i hi
  by_cases hlt : i < n
  · rw [Mem.writeBlock_of_lt _ _ _ hlt, h i hlt]
  · obtain ⟨j, rfl⟩ := Nat.exists_eq_add_of_le (Nat.le_of_not_lt hlt)
    rw [Mem.writeBlock_of_mem (by simpa using by omega), Mem.readBlock_getElem, Nat.add_assoc]

theorem Holds.readBlock (h : Holds m w n log) {l : Nat} (hl : k + l ≤ n) :
    log.readBlock k l = m.readBlock (w + k) l := by
  refine Mem.readBlock_congr fun i hi => ?_
  rw [h _ (by omega), Nat.add_assoc]

theorem readWord_holds (cfg : Config) (k : Nat) (hread : ∀ a, drv.readOk a = true) (cond : Prop)
    [Decidable cond] (hlog : Holds m w n log) (hn : cond → n = k * cfg.writeSize) :
    ∃ log', readWord cfg drv m cond k (w + n, log) =
        some (w + (n + if cond then cfg.writeSize else 0), log') ∧
      Holds m w (n + if cond then cfg.writeSize else 0) log' := by
  by_cases hc : cond
  · refine ⟨log.writeBlock n (m.readBlock (w + n) cfg.writeSize), ?_, ?_⟩
    · simp only [readWord, if_pos hc, backingStoreRead, if_pos (hread _), ← hn hc, Nat.add_assoc]
    · rw [if_pos hc]
      exact hlog.next _
  · refine ⟨log, ?_, ?_⟩
    · simp only [readWord, if_neg hc, Nat.add_zero]
    · rw [if_neg hc]
      exact hlog

end Holds

section Step

variable {cfg : Config} {drv : Driver} {m : Mem UInt8} {w : Nat} {c : Cache}

def entryAt (m : Mem UInt8) (w : Nat) : Raw8 := fun i => m (w + i)

theorem Holds.type {n : Nat} {log : Raw8} (h : Holds m w n log) (hn : 0 < n) :
    logEntryGetType log = logEntryGetType (entryAt m w) := by
  rw [logEntryGetType, h 0 hn]; rfl

theorem Holds.length {n : Nat} {log : Raw8} (h : Holds m w n log) (hn : 0 < n) :
    logEntryMultibyteGetLength log = logEntryMultibyteGetLength (entryAt m w) := by
  rw [logEntryMultibyteGetLength, h 0 hn]; rfl

theorem Holds.address {n : Nat} {log : Raw8} (h : Holds m w n log) (hn : 2 < n) :
    logEntryMultibyteGetAddress log = logEntryMultibyteGetAddress (entryAt m w) := by
  rw [logEntryMultibyteGetAddress, h 0 (by omega), h 1 (by omega), h 2 hn]; rfl

theorem not_blank_of_ne (cfg : Config) (h : m w ≠ 0) :
    ¬ (m.readBlock w cfg.writeSize).all (· = 0) = true := by
  intro hall
  rw [List.all_eq_true] at hall
  have hmem : m w ∈ m.readBlock w cfg.writeSize := by
    obtain ⟨k, hk⟩ := Nat.exists_eq_succ_of_ne_zero (Nat.ne_of_gt (writeSize_pos cfg))
    rw [hk]
    exact List.mem_cons_self
  exact h (by simpa using hall _ hmem)

theorem playStep_first (hread : ∀ a, drv.readOk a = true)
    (h : ¬ (m.readBlock w cfg.writeSize).all (· = 0) = true) :
    playStep cfg drv m w c =
      (let log := drv.stack.writeBlock 0 (m.readBlock w cfg.writeSize)
      if logEntryGetType (entryAt m w) = 0 then
        playMultibyte cfg drv m (w + cfg.writeSize) log c
      else if cfg.writeSize = 2 ∧ logEntryGetType (entryAt m w) = 1 then
        playOptimized64 cfg (w + cfg.writeSize) log c
      else if cfg.writeSize = 2 ∧ logEntryGetType (entryAt m w) = 2 then
        playWord01 cfg (w + cfg.writeSize) log c
      else .stop .failed (w + cfg.writeSize)) := by
  have hpos := writeSize_pos cfg
  rw [playStep, backingStoreRead, if_pos (hread w)]
  dsimp only
  rw [if_neg h, (Holds.first _ _).type hpos]

/-- A multi-byte entry: its words are read one after the other, as many as its length needs. -/
theorem playStep_multibyte (hread : ∀ a, drv.readOk a = true)
    (h : ¬ (m.readBlock w cfg.writeSize).all (· = 0) = true)
    (ht : logEntryGetType (entryAt m w) = 0)
    (hl : logEntryMultibyteGetLength (entryAt m w) ≤ logEntryMultibyteMaxBytes)
    (hfit : logEntryMultibyteGetAddress (entryAt m w) + logEntryMultibyteGetLength (entryAt m w) ≤
      cfg.logicalSize) :
    playStep cfg drv m w c =
      .next (w + cfg.multibyteWords (logEntryMultibyteGetLength (entryAt m w)) * cfg.writeSize)
        (c.writeBlock (logEntryMultibyteGetAddress (entryAt m w))
          (m.readBlock (w + 3) (logEntryMultibyteGetLength (entryAt m w)))) := by
  rw [playStep_first hread h, if_pos ht]
  have h₁ := Holds.first (m := m) (w := w) drv.stack cfg.writeSize
  generalize drv.stack.writeBlock 0 (m.readBlock w cfg.writeSize) = log at h₁ ⊢
  simp only [logEntryMultibyteMaxBytes] at hl
  generalize hlen : logEntryMultibyteGetLength (entryAt m w) = l at hl hfit ⊢
  have hws := cfg.writeSize_cases
  obtain ⟨log₂, e₂, h₂⟩ := readWord_holds cfg 1 hread (cfg.writeSize = 2) h₁ (by omega)
  have hpos : 2 < cfg.writeSize + (if cfg.writeSize = 2 then cfg.writeSize else 0) := by
    split <;> omega
  obtain ⟨log₃, e₃, h₃⟩ := readWord_holds cfg 2 hread (cfg.writeSize = 2 ∧ l > 1) h₂
    (fun hc => by rw [if_pos hc.1]; omega)
  obtain ⟨log₄, e₄, h₄⟩ := readWord_holds cfg 3 hread (cfg.writeSize = 2 ∧ l > 3) h₃
    (fun hc => by rw [if_pos hc.1, if_pos ⟨hc.1, by omega⟩]; omega)
  obtain ⟨log₅, e₅, h₅⟩ := readWord_holds cfg 1 hread (cfg.writeSize = 4 ∧ l > 1) h₄
    (fun hc => by rw [if_neg (by omega), if_neg (by omega), if_neg (by omega)]; omega)
  have hn : cfg.writeSize + (if cfg.writeSize = 2 then cfg.writeSize else 0) +
      (if cfg.writeSize = 2 ∧ l > 1 then cfg.writeSize else 0) +
      (if cfg.writeSize = 2 ∧ l > 3 then cfg.writeSize else 0) +
      (if cfg.writeSize = 4 ∧ l > 1 then cfg.writeSize else 0) =
      cfg.multibyteWords l * cfg.writeSize := by
    unfold Config.multibyteWords
    rcases hws with h2 | h4 | h8
    · simp only [h2]
      by_cases h1 : l > 1 <;> by_cases h3 : l > 3 <;> simp [h1, h3]
    · simp only [h4]
      by_cases h1 : l > 1 <;> simp [h1]
    · simp [h8]
  rw [hn] at e₅ h₅
  have hbytes := cfg.multibyteWords_bytes hl
  simp only [playMultibyte, e₂, h₂.address hpos, h₂.length (by omega), hlen,
    if_neg (Nat.not_lt.mpr hfit), e₃, e₄, e₅, h₅.readBlock hbytes]

theorem playStep_optimized64 (hread : ∀ a, drv.readOk a = true)
    (h : ¬ (m.readBlock w cfg.writeSize).all (· = 0) = true)
    (hws : cfg.writeSize = 2) (ht : logEntryGetType (entryAt m w) = 1)
    (hfit : logEntryOptimized64GetAddress (entryAt m w) < cfg.logicalSize) :
    playStep cfg drv m w c =
      .next (w + cfg.writeSize)
        (c.writeBlock (logEntryOptimized64GetAddress (entryAt m w))
          [logEntryOptimized64GetValue (entryAt m w)]) := by
  have h₁ := Holds.first (m := m) (w := w) drv.stack cfg.writeSize
  have ha : logEntryOptimized64GetAddress (drv.stack.writeBlock 0 (m.readBlock w cfg.writeSize)) =
      logEntryOptimized64GetAddress (entryAt m w) := by
    rw [logEntryOptimized64GetAddress, h₁ 0 (by omega)]; rfl
  have hv : logEntryOptimized64GetValue (drv.stack.writeBlock 0 (m.readBlock w cfg.writeSize)) =
      logEntryOptimized64GetValue (entryAt m w) := by
    rw [logEntryOptimized64GetValue, h₁ 1 (by omega)]; rfl
  rw [playStep_first hread h, if_neg (by omega), if_pos ⟨hws, ht⟩]
  simp only [playOptimized64, ha, hv, if_neg (Nat.not_le.mpr hfit)]

theorem playStep_word01 (hread : ∀ a, drv.readOk a = true)
    (h : ¬ (m.readBlock w cfg.writeSize).all (· = 0) = true)
    (hws : cfg.writeSize = 2) (ht : logEntryGetType (entryAt m w) = 2)
    (hfit : logEntryWord01GetAddress (entryAt m w) + 1 < cfg.logicalSize) :
    playStep cfg drv m w c =
      .next (w + cfg.writeSize)
        (c.writeBlock (logEntryWord01GetAddress (entryAt m w))
          [logEntryWord01GetValue (entryAt m w), 0]) := by
  have h₁ := Holds.first (m := m) (w := w) drv.stack cfg.writeSize
  have ha : logEntryWord01GetAddress (drv.stack.writeBlock 0 (m.readBlock w cfg.writeSize)) =
      logEntryWord01GetAddress (entryAt m w) := by
    rw [logEntryWord01GetAddress, h₁ 0 (by omega), h₁ 1 (by omega)]; rfl
  have hv : logEntryWord01GetValue (drv.stack.writeBlock 0 (m.readBlock w cfg.writeSize)) =
      logEntryWord01GetValue (entryAt m w) := by
    rw [logEntryWord01GetValue, h₁ 0 (by omega)]; rfl
  rw [playStep_first hread h, if_neg (by omega), if_neg (by omega), if_pos ⟨hws, ht⟩]
  simp only [playWord01, ha, hv, if_neg (Nat.not_le.mpr hfit)]

end Step
end WearLeveling
end VialQmk
