import VialQmk.WearLeveling.Discipline

/-!
# WearLeveling.Total

`wear_leveling_init` on a store with any content. What it reads and indexes is a list of accesses,
made along the rounds of the playback loop; `replayFormat` says what the content means, entry by
entry, up to the first one that is not well formed.

* `stepAccesses_inBounds`: a round leaves the store or the entry exactly at a `Stray` entry.
* `plays_safely`: playback is total if and only if the log does not end at a stray entry.
-/

namespace VialQmk
namespace WearLeveling

open Lib

/-- Something `wear_leveling_init` reads or indexes: a word of the store, bytes of the log entry,
bytes of the logical cache. -/
inductive Access where
  | word (address : Nat)
  | entry (offset length : Nat)
  | cache (address length : Nat)
  deriving DecidableEq, Repr

def Access.InBounds (cfg : Config) : Access → Prop
  | .word address => address + cfg.writeSize ≤ cfg.backingSize
  | .entry offset length => offset + length ≤ 8
  | .cache address length => address + length ≤ cfg.logicalSize

instance (cfg : Config) (x : Access) : Decidable (x.InBounds cfg) := by
  cases x <;> exact Nat.decLe _ _

section Accesses

variable (cfg : Config) (drv : Driver) (m : Mem UInt8)

def readWordAccesses (cond : Prop) [Decidable cond] (k address : Nat) : List Access :=
  if cond then [.word address, .entry (k * cfg.writeSize) cfg.writeSize] else []

def multibyteAccesses (address : Nat) (log : Raw8) : List Access :=
  readWordAccesses cfg (cfg.writeSize = 2) 1 address ++
  match readWord cfg drv m (cfg.writeSize = 2) 1 (address, log) with
  | none => []
  | some (address, log) =>
    let a := logEntryMultibyteGetAddress log
    let l := logEntryMultibyteGetLength log
    .entry 0 3 ::
      if a + l > cfg.logicalSize then []
      else
        readWordAccesses cfg (cfg.writeSize = 2 ∧ l > 1) 2 address ++
        match readWord cfg drv m (cfg.writeSize = 2 ∧ l > 1) 2 (address, log) with
        | none => []
        | some (address, log) =>
          readWordAccesses cfg (cfg.writeSize = 2 ∧ l > 3) 3 address ++
          match readWord cfg drv m (cfg.writeSize = 2 ∧ l > 3) 3 (address, log) with
          | none => []
          | some (address, log) =>
            readWordAccesses cfg (cfg.writeSize = 4 ∧ l > 1) 1 address ++
            match readWord cfg drv m (cfg.writeSize = 4 ∧ l > 1) 1 (address, log) with
            | none => []
            | some _ => [.entry 3 l, .cache a l]

def optimized64Accesses (log : Raw8) : List Access :=
  let a := logEntryOptimized64GetAddress log
  .entry 0 2 :: if a ≥ cfg.logicalSize then [] else [.cache a 1]

def word01Accesses (log : Raw8) : List Access :=
  let a := logEntryWord01GetAddress log
  .entry 0 2 :: if a + 1 ≥ cfg.logicalSize then [] else [.cache a 2]

def stepAccesses (address : Nat) : List Access :=
  .word address ::
  match backingStoreRead cfg drv m address with
  | none => []
  | some value =>
    if value.all (· = 0) then []
    else
      let address := address + cfg.writeSize
      let log := drv.stack.writeBlock 0 value
      .entry 0 cfg.writeSize :: .entry 0 1 ::
      if logEntryGetType log = 0 then multibyteAccesses cfg drv m address log
      else if cfg.writeSize = 2 ∧ logEntryGetType log = 1 then optimized64Accesses cfg log
      else if cfg.writeSize = 2 ∧ logEntryGetType log = 2 then word01Accesses cfg log
      else []

def loopAccesses : Nat → Nat → Cache → List Access
  | 0, _, _ => []
  | fuel + 1, address, cache =>
    if address < cfg.backingSize then
      stepAccesses cfg drv m address ++
      match playStep cfg drv m address cache with
      | .stop _ _ => []
      | .next address cache => loopAccesses fuel address cache
    else []

/-- The bulk reads of the data and of the checksum, and the sum over the cache. -/
def readConsolidatedAccesses : List Access :=
  (List.range (cfg.logicalSize / cfg.writeSize)).map (fun k => .word (k * cfg.writeSize)) ++
    [.cache 0 cfg.logicalSize] ++
    (List.range (8 / cfg.writeSize)).map (fun k => .word (cfg.logicalSize + k * cfg.writeSize)) ++
    [.entry 0 8]

/-- A consolidation stores the cache and its checksum, and reads no word. -/
def consolidateAccesses : List Access := [.cache 0 cfg.logicalSize, .entry 0 8]

def playbackAccesses (s : State) : List Access :=
  let r := playLoop cfg drv s.store cfg.backingSize cfg.logBase s.cache
  loopAccesses cfg drv s.store cfg.backingSize cfg.logBase s.cache ++
    if r.1 = .failed ∨ r.2.1 ≥ cfg.backingSize then consolidateAccesses cfg else []

/-- The accesses of `wearLevelingInit` on a store that initialises and can be read. -/
def initAccesses (s : State) : List Access :=
  let s := wearLevelingClearCache cfg s
  .cache 0 cfg.logicalSize ::
    (readConsolidatedAccesses cfg ++ playbackAccesses cfg drv (wearLevelingReadConsolidated cfg drv s).2)

end Accesses

section Format

variable (cfg : Config) (m : Mem UInt8)

/-- The well-formed entry at `w`: where the next one starts, the address and the data. It lies inside
the store, its data is at most five bytes, and these lie inside the logical size. -/
def decodeEntry (w : Nat) : Option (Nat × Nat × List UInt8) :=
  let e := entryAt m w
  if logEntryGetType e = 0 then
    let a := logEntryMultibyteGetAddress e
    let l := logEntryMultibyteGetLength e
    let next := w + cfg.multibyteWords l * cfg.writeSize
    if next ≤ cfg.backingSize ∧ l ≤ logEntryMultibyteMaxBytes ∧ a + l ≤ cfg.logicalSize then
      some (next, a, m.readBlock (w + 3) l)
    else none
  else if cfg.writeSize = 2 ∧ logEntryGetType e = 1 ∧
      logEntryOptimized64GetAddress e < cfg.logicalSize then
    some (w + 2, logEntryOptimized64GetAddress e, [logEntryOptimized64GetValue e])
  else if cfg.writeSize = 2 ∧ logEntryGetType e = 2 ∧
      logEntryWord01GetAddress e + 1 < cfg.logicalSize then
    some (w + 2, logEntryWord01GetAddress e, [logEntryWord01GetValue e, 0])
  else none

def Blank (w : Nat) : Prop := (m.readBlock w cfg.writeSize).all (· = 0) = true
deriving Decidable

/-- All well-formed entries from `w` on, up to an empty word, an entry that is not well formed, or
the end of the store: where they end, and the cache with their data. -/
def replayFormat : Nat → Nat → Cache → Nat × Cache
  | 0, w, c => (w, c)
  | fuel + 1, w, c =>
    if w < cfg.backingSize ∧ ¬ Blank cfg m w then
      match decodeEntry cfg m w with
      | none => (w, c)
      | some (next, a, data) => replayFormat fuel next (c.writeBlock a data)
    else (w, c)

def replayStore : Nat × Cache := replayFormat cfg m cfg.backingSize cfg.logBase (baseCache cfg m)

/-- A multi-byte entry whose head does not fit in front of the end of the store, or one for an address
range of the logical size with more than five bytes or with its last words behind the end of the
store. -/
def Stray (w : Nat) : Prop :=
  let e := entryAt m w
  let l := logEntryMultibyteGetLength e
  w < cfg.backingSize ∧ ¬ Blank cfg m w ∧ logEntryGetType e = 0 ∧
    ((cfg.writeSize = 2 ∧ cfg.backingSize < w + 4) ∨
      (logEntryMultibyteGetAddress e + l ≤ cfg.logicalSize ∧
        (logEntryMultibyteMaxBytes < l ∨
          cfg.backingSize < w + cfg.multibyteWords l * cfg.writeSize)))

end Format

section Round

variable {cfg : Config} {drv : Driver} {m : Mem UInt8} {w : Nat} {c : Cache}

theorem readWordAccesses_congr {cond : Prop} [Decidable cond] {k a b : Nat} (h : cond → a = b) :
    readWordAccesses cfg cond k a = readWordAccesses cfg cond k b := by
  unfold readWordAccesses
  split
  · rename_i hc
    rw [h hc]
  · rfl

theorem multibyteAccesses_of_head (hread : ∀ a, drv.readOk a = true) {log : Raw8}
    (hlog : Holds m w cfg.writeSize log) :
    multibyteAccesses cfg drv m (w + cfg.writeSize) log =
      (let a := logEntryMultibyteGetAddress (entryAt m w)
      let l := logEntryMultibyteGetLength (entryAt m w)
      readWordAccesses cfg (cfg.writeSize = 2) 1 (w + cfg.writeSize) ++ .entry 0 3 ::
        if a + l > cfg.logicalSize then []
        else readWordAccesses cfg (cfg.writeSize = 2 ∧ l > 1) 2 (w + 2 * cfg.writeSize) ++
          (readWordAccesses cfg (cfg.writeSize = 2 ∧ l > 3) 3 (w + 3 * cfg.writeSize) ++
            (readWordAccesses cfg (cfg.writeSize = 4 ∧ l > 1) 1 (w + cfg.writeSize) ++
              [.entry 3 l, .cache a l]))) := by
  have hws := cfg.writeSize_cases
  obtain ⟨log₂, e₂, h₂⟩ := readWord_holds cfg 1 hread (cfg.writeSize = 2) hlog (by omega)
  have hpos : 2 < cfg.writeSize + (if cfg.writeSize = 2 then cfg.writeSize else 0) := by
    split <;> omega
  have haddress := h₂.address hpos
  have hlength := h₂.length (Nat.lt_trans Nat.two_pos hpos)
  generalize logEntryMultibyteGetAddress (entryAt m w) = a at haddress ⊢
  generalize logEntryMultibyteGetLength (entryAt m w) = l at hlength ⊢
  obtain ⟨log₃, e₃, h₃⟩ := readWord_holds cfg 2 hread (cfg.writeSize = 2 ∧ l > 1) h₂
    (fun hc => by rw [if_pos hc.1]; omega)
  obtain ⟨log₄, e₄, h₄⟩ := readWord_holds cfg 3 hread (cfg.writeSize = 2 ∧ l > 3) h₃
    (fun hc => by rw [if_pos hc.1, if_pos ⟨hc.1, by omega⟩]; omega)
  obtain ⟨log₅, e₅, -⟩ := readWord_holds cfg 1 hread (cfg.writeSize = 4 ∧ l > 1) h₄
    (fun hc => by rw [if_neg (by omega), if_neg (by omega), if_neg (by omega)]; omega)
  simp only [multibyteAccesses, e₂, haddress, hlength, e₃, e₄, e₅]
  congr 2
  split
  · rfl
  · congr 1
    · refine readWordAccesses_congr fun hc => ?_
      rw [if_pos hc.1]
      omega
    · congr 1
      · refine readWordAccesses_congr fun hc => ?_
        rw [if_pos hc.1, if_pos ⟨hc.1, by omega⟩]
        omega
      · congr 1
        refine readWordAccesses_congr fun hc => ?_
        rw [if_neg (by omega), if_neg (by omega), if_neg (by omega)]
        omega

theorem readWordAccesses_inBounds {cond : Prop} [Decidable cond] {k a : Nat}
    (hk : cond → k * cfg.writeSize + cfg.writeSize ≤ 8) :
    (∀ x ∈ readWordAccesses cfg cond k a, x.InBounds cfg) ↔
      (cond → a + cfg.writeSize ≤ cfg.backingSize) := by
  unfold readWordAccesses
  by_cases hc : cond
  · simp [hc, Access.InBounds, hk hc]
  · simp [hc]

/-- A multi-byte entry is read inside the store and indexed inside the entry if it is not stray. -/
theorem multibyteAccesses_inBounds (hread : ∀ a, drv.readOk a = true) {log : Raw8}
    (hlog : Holds m w cfg.writeSize log) (hw : w + cfg.writeSize ≤ cfg.backingSize)
    (hblank : ¬ Blank cfg m w) (htype : logEntryGetType (entryAt m w) = 0) :
    (∀ x ∈ multibyteAccesses cfg drv m (w + cfg.writeSize) log, x.InBounds cfg) ↔
      ¬ Stray cfg m w := by
  have hws := cfg.writeSize_cases
  have hlt : w < cfg.backingSize := by omega
  rw [multibyteAccesses_of_head hread hlog]
  simp only [Stray, hlt, hblank, htype, logEntryMultibyteMaxBytes, not_false_iff, true_and]
  generalize logEntryMultibyteGetAddress (entryAt m w) = a
  generalize logEntryMultibyteGetLength (entryAt m w) = l
  have hbytes : cfg.multibyteWords l * cfg.writeSize =
      if cfg.writeSize = 2 then if l > 3 then 8 else if l > 1 then 6 else 4
      else if cfg.writeSize = 4 then if l > 1 then 8 else 4 else 8 := by
    unfold Config.multibyteWords
    by_cases h₁ : l > 1
    · by_cases h₃ : l > 3
      · rcases hws with h | h | h <;> simp [h, h₁, h₃]
      · rcases hws with h | h | h <;> simp [h, h₁, h₃]
    · rcases hws with h | h | h <;> simp [h, h₁, show ¬ l > 3 by omega]
  rw [hbytes, List.forall_mem_append, readWordAccesses_inBounds (by omega), List.forall_mem_cons]
  by_cases hfit : a + l > cfg.logicalSize
  · simp only [if_pos hfit, Access.InBounds, List.not_mem_nil, false_imp_iff, implies_true, and_true]
    omega
  · rw [if_neg hfit, List.forall_mem_append, List.forall_mem_append, List.forall_mem_append,
      readWordAccesses_inBounds (by omega), readWordAccesses_inBounds (by omega),
      readWordAccesses_inBounds (by omega), List.forall_mem_cons, List.forall_mem_singleton]
    simp only [Access.InBounds]
    by_cases h₁ : l > 1
    · by_cases h₃ : l > 3
      · rcases hws with h | h | h <;> simp [h, h₁, h₃] <;> omega
      · rcases hws with h | h | h <;> simp [h, h₁, h₃] <;> omega
    · rcases hws with h | h | h <;> simp [h, h₁, show ¬ l > 3 by omega] <;> omega

theorem stepAccesses_inBounds (hread : ∀ a, drv.readOk a = true)
    (hw : w + cfg.writeSize ≤ cfg.backingSize) :
    (∀ x ∈ stepAccesses cfg drv m w, x.InBounds cfg) ↔ ¬ Stray cfg m w := by
  have hws := cfg.writeSize_cases
  have hlog := Holds.first (m := m) (w := w) drv.stack cfg.writeSize
  rw [stepAccesses, backingStoreRead, if_pos (hread w), List.forall_mem_cons]
  dsimp only
  by_cases hblank : Blank cfg m w
  · rw [if_pos (show (m.readBlock w cfg.writeSize).all (· = 0) = true from hblank)]
    exact ⟨fun _ hstray => hstray.2.1 hblank, fun _ => ⟨hw, List.forall_mem_nil _⟩⟩
  have hentry : ∀ n, n ≤ 8 → Access.InBounds cfg (.entry 0 n) := fun n hn => by
    simpa [Access.InBounds] using hn
  rw [if_neg (show ¬ (m.readBlock w cfg.writeSize).all (· = 0) = true from hblank),
    List.forall_mem_cons, List.forall_mem_cons, hlog.type (by omega)]
  generalize drv.stack.writeBlock 0 (m.readBlock w cfg.writeSize) = log at hlog ⊢
  simp only [hentry cfg.writeSize (by omega), hentry 1 (by decide), true_and,
    show Access.InBounds cfg (.word w) from hw]
  by_cases htype : logEntryGetType (entryAt m w) = 0
  · rw [if_pos htype]
    exact multibyteAccesses_inBounds hread hlog hw hblank htype
  · -- the one-word entries check their address before they index the cache
    rw [if_neg htype]
    refine ⟨fun _ hstray => htype hstray.2.2.1, fun _ => ?_⟩
    split
    · rw [optimized64Accesses, List.forall_mem_cons]
      refine ⟨hentry 2 (by decide), ?_⟩
      split
      · exact List.forall_mem_nil _
      · rw [List.forall_mem_singleton]
        simp only [Access.InBounds]
        omega
    · split
      · rw [word01Accesses, List.forall_mem_cons]
        refine ⟨hentry 2 (by decide), ?_⟩
        split
        · exact List.forall_mem_nil _
        · rw [List.forall_mem_singleton]
          simp only [Access.InBounds]
          omega
      · exact List.forall_mem_nil _

theorem playStep_of_decode (hread : ∀ a, drv.readOk a = true) (hblank : ¬ Blank cfg m w) {next a : Nat}
    {data : List UInt8} (h : decodeEntry cfg m w = some (next, a, data)) :
    playStep cfg drv m w c = .next next (c.writeBlock a data) := by
  simp only [decodeEntry] at h
  split at h
  · rename_i htype
    split at h
    · rename_i hfit
      cases h
      exact playStep_multibyte hread hblank htype hfit.2.1 hfit.2.2
    · cases h
  · split at h
    · rename_i h₁
      cases h
      have hstep := playStep_optimized64 (c := c) hread hblank h₁.1 h₁.2.1 h₁.2.2
      rwa [h₁.1] at hstep
    · split at h
      · rename_i h₂
        cases h
        have hstep := playStep_word01 (c := c) hread hblank h₂.1 h₂.2.1 h₂.2.2
        rwa [h₂.1] at hstep
      · cases h

theorem not_stray_of_decode {x : Nat × Nat × List UInt8} (h : decodeEntry cfg m w = some x) :
    ¬ Stray cfg m w := by
  rintro ⟨-, -, htype, hstray⟩
  simp only [decodeEntry, if_pos htype] at h
  split at h
  · rename_i hfit
    obtain ⟨h₁, h₂, -⟩ := hfit
    rcases hstray with ⟨hws, hend⟩ | ⟨-, hlong | hend⟩
    · have hwords : 4 ≤ cfg.multibyteWords (logEntryMultibyteGetLength (entryAt m w)) * cfg.writeSize := by
        rw [Config.multibyteWords, if_pos hws, hws]
        omega
      omega
    · omega
    · omega
  · cases h

theorem playStep_of_malformed (hread : ∀ a, drv.readOk a = true) (hw : w < cfg.backingSize)
    (hblank : ¬ Blank cfg m w) (hdecode : decodeEntry cfg m w = none) (hstray : ¬ Stray cfg m w) :
    ∃ a, playStep cfg drv m w c = .stop .failed a := by
  have hws := cfg.writeSize_cases
  have hlog := Holds.first (m := m) (w := w) drv.stack cfg.writeSize
  rw [playStep_first hread hblank]
  generalize drv.stack.writeBlock 0 (m.readBlock w cfg.writeSize) = log at hlog ⊢
  dsimp only
  simp only [decodeEntry] at hdecode
  by_cases htype : logEntryGetType (entryAt m w) = 0
  · rw [if_pos htype] at hdecode ⊢
    -- what keeps it from being stray is an address range behind the logical size
    have hfar : logEntryMultibyteGetAddress (entryAt m w) +
        logEntryMultibyteGetLength (entryAt m w) > cfg.logicalSize := by
      by_contra hfit
      refine hstray ⟨hw, hblank, htype, .inr ⟨Nat.le_of_not_lt hfit, ?_⟩⟩
      by_contra hbytes
      rw [not_or, Nat.not_lt, Nat.not_lt] at hbytes
      rw [if_pos ⟨hbytes.2, hbytes.1, Nat.le_of_not_lt hfit⟩] at hdecode
      cases hdecode
    obtain ⟨log₂, e₂, h₂⟩ := readWord_holds cfg 1 hread (cfg.writeSize = 2) hlog (by omega)
    have hpos : 2 < cfg.writeSize + (if cfg.writeSize = 2 then cfg.writeSize else 0) := by
      split <;> omega
    refine ⟨w + (cfg.writeSize + if cfg.writeSize = 2 then cfg.writeSize else 0), ?_⟩
    simp only [playMultibyte, e₂, h₂.address hpos, h₂.length (w := w) (Nat.lt_trans Nat.two_pos hpos),
      if_pos hfar]
  · rw [if_neg htype] at hdecode ⊢
    by_cases h₁ : cfg.writeSize = 2 ∧ logEntryGetType (entryAt m w) = 1
    · have ha : logEntryOptimized64GetAddress log = logEntryOptimized64GetAddress (entryAt m w) := by
        rw [logEntryOptimized64GetAddress, hlog 0 (by omega)]
        rfl
      have hfar : logEntryOptimized64GetAddress (entryAt m w) ≥ cfg.logicalSize := by
        by_contra hfit
        rw [if_pos ⟨h₁.1, h₁.2, Nat.lt_of_not_le hfit⟩] at hdecode
        cases hdecode
      rw [if_pos h₁]
      refine ⟨w + cfg.writeSize, ?_⟩
      simp only [playOptimized64, ha, if_pos hfar]
    · rw [if_neg h₁]
      by_cases h₂ : cfg.writeSize = 2 ∧ logEntryGetType (entryAt m w) = 2
      · have ha : logEntryWord01GetAddress log = logEntryWord01GetAddress (entryAt m w) := by
          rw [logEntryWord01GetAddress, hlog 0 (by omega), hlog 1 (by omega)]
          rfl
        have hfar : logEntryWord01GetAddress (entryAt m w) + 1 ≥ cfg.logicalSize := by
          by_contra hfit
          rw [if_neg (fun h => h₁ ⟨h.1, h.2.1⟩), if_pos ⟨h₂.1, h₂.2, Nat.lt_of_not_le hfit⟩] at hdecode
          cases hdecode
        rw [if_pos h₂]
        refine ⟨w + cfg.writeSize, ?_⟩
        simp only [playWord01, ha, if_pos hfar]
      · rw [if_neg h₂]
        exact ⟨w + cfg.writeSize, rfl⟩

end Round

section Loop

variable {cfg : Config} {drv : Driver} {m : Mem UInt8}

/-- A blank word, or the end of the store, is where the format ends and no entry that is stray. -/
theorem replayFormat_end (fuel : Nat) {w : Nat} {c : Cache} (h : ¬ (w < cfg.backingSize ∧ ¬ Blank cfg m w)) :
    replayFormat cfg m fuel w c = (w, c) ∧ ¬ Stray cfg m w := by
  refine ⟨?_, fun hstray => h ⟨hstray.1, hstray.2.1⟩⟩
  cases fuel with
  | zero => rfl
  | succ fuel => rw [replayFormat, if_neg h]

theorem loopAccesses_inBounds (hread : ∀ a, drv.readOk a = true) (fuel : Nat) :
    ∀ {w : Nat} (c : Cache), w % cfg.writeSize = 0 → cfg.backingSize ≤ w + fuel →
      ((∀ x ∈ loopAccesses cfg drv m fuel w c, x.InBounds cfg) ↔
        ¬ Stray cfg m (replayFormat cfg m fuel w c).1) := by
  induction fuel with
  | zero =>
    intro w c _ hfuel
    exact ⟨fun _ hstray => absurd hstray.1 (by simp only [replayFormat]; omega),
      fun _ => List.forall_mem_nil _⟩
  | succ fuel ih =>
    intro w c haligned hfuel
    by_cases hw : w < cfg.backingSize
    · rw [loopAccesses, if_pos hw, List.forall_mem_append,
        stepAccesses_inBounds hread (word_fits haligned hw)]
      have hnext := playStep_aligned drv m c haligned
      by_cases hblank : Blank cfg m w
      · obtain ⟨h₁, h₂⟩ := replayFormat_end (c := c) (fuel + 1)
          (show ¬ (w < cfg.backingSize ∧ ¬ Blank cfg m w) from fun h => h.2 hblank)
        have hstop : playStep cfg drv m w c = .stop .success w := by
          rw [playStep, backingStoreRead, if_pos (hread w)]
          dsimp only
          rw [if_pos (show (m.readBlock w cfg.writeSize).all (· = 0) = true from hblank)]
        rw [h₁, hstop]
        simp [h₂]
      · rw [replayFormat, if_pos ⟨hw, hblank⟩]
        cases hdecode : decodeEntry cfg m w with
        | none =>
          dsimp only
          refine ⟨fun h => h.1, fun hstray => ⟨hstray, ?_⟩⟩
          obtain ⟨a, hstop⟩ := playStep_of_malformed (c := c) hread hw hblank hdecode hstray
          rw [hstop]
          exact List.forall_mem_nil _
        | some x =>
          obtain ⟨next, a, data⟩ := x
          have hstep := playStep_of_decode (c := c) hread hblank hdecode
          have hlt := playStep_lt hstep
          rw [hstep] at hnext ⊢
          have hrest := ih (w := next) (c.writeBlock a data) hnext (by omega)
          dsimp only
          rw [← hrest]
          exact ⟨fun h => h.2, fun h => ⟨not_stray_of_decode hdecode, h⟩⟩
    · obtain ⟨h₁, h₂⟩ := replayFormat_end (m := m) (c := c) (fuel + 1)
        (show ¬ (w < cfg.backingSize ∧ ¬ Blank cfg m w) from fun h => hw h.1)
      rw [h₁, loopAccesses, if_neg hw]
      exact ⟨fun _ => h₂, fun _ => List.forall_mem_nil _⟩

/-- Unless the log ends at a stray entry, the loop applies the well-formed entries and no others. -/
theorem playLoop_replayFormat (hread : ∀ a, drv.readOk a = true) (fuel : Nat) :
    ∀ {w : Nat} (c : Cache), ¬ Stray cfg m (replayFormat cfg m fuel w c).1 →
      (playLoop cfg drv m fuel w c).2.2 = (replayFormat cfg m fuel w c).2 := by
  induction fuel with
  | zero => exact fun _ _ => rfl
  | succ fuel ih =>
    intro w c hstray
    rw [playLoop]
    by_cases hw : w < cfg.backingSize
    · rw [if_pos hw]
      by_cases hblank : Blank cfg m w
      · obtain ⟨h₁, -⟩ := replayFormat_end (c := c) (fuel + 1)
          (show ¬ (w < cfg.backingSize ∧ ¬ Blank cfg m w) from fun h => h.2 hblank)
        rw [h₁, playStep, backingStoreRead, if_pos (hread w)]
        dsimp only
        rw [if_pos (show (m.readBlock w cfg.writeSize).all (· = 0) = true from hblank)]
      · rw [replayFormat, if_pos ⟨hw, hblank⟩] at hstray ⊢
        cases hdecode : decodeEntry cfg m w with
        | none =>
          rw [hdecode] at hstray
          obtain ⟨a, hstop⟩ := playStep_of_malformed (c := c) hread hw hblank hdecode hstray
          rw [hstop]
        | some x =>
          obtain ⟨next, a, data⟩ := x
          rw [hdecode] at hstray
          rw [playStep_of_decode (c := c) hread hblank hdecode]
          exact ih (c.writeBlock a data) hstray
    · obtain ⟨h₁, -⟩ := replayFormat_end (m := m) (c := c) (fuel + 1)
        (show ¬ (w < cfg.backingSize ∧ ¬ Blank cfg m w) from fun h => hw h.1)
      rw [h₁, if_neg hw]

theorem playLoop_fuel (fuel : Nat) : ∀ (fuel' : Nat) {w : Nat} (c : Cache),
    cfg.backingSize ≤ w + fuel → cfg.backingSize ≤ w + fuel' →
      playLoop cfg drv m fuel w c = playLoop cfg drv m fuel' w c := by
  induction fuel with
  | zero =>
    intro fuel' w c h _
    cases fuel' with
    | zero => rfl
    | succ fuel' => rw [playLoop, playLoop, if_neg (by omega)]
  | succ fuel ih =>
    intro fuel' w c h h'
    cases fuel' with
    | zero => rw [playLoop, playLoop, if_neg (by omega)]
    | succ fuel' =>
      rw [playLoop, playLoop]
      split
      · cases hstep : playStep cfg drv m w c with
        | stop status a => rfl
        | next a d =>
          have hlt := playStep_lt hstep
          exact ih fuel' d (by omega) (by omega)
      · rfl

end Loop

theorem readConsolidatedAccesses_inBounds (cfg : Config) :
    (∀ x ∈ readConsolidatedAccesses cfg, x.InBounds cfg) ↔ cfg.logicalSize + 8 ≤ cfg.backingSize := by
  have hpos := writeSize_pos cfg
  have hlogical := Nat.div_mul_cancel (Nat.dvd_of_mod_eq_zero cfg.logical_mod)
  have height := Nat.div_mul_cancel (Nat.dvd_of_mod_eq_zero (eight_mod cfg))
  have htwo := cfg.two_logical_le
  simp only [readConsolidatedAccesses, List.forall_mem_append, List.forall_mem_singleton,
    List.forall_mem_map, List.mem_range, Access.InBounds]
  constructor
  · rintro ⟨⟨-, h⟩, -⟩
    obtain ⟨k, hk⟩ := Nat.exists_eq_succ_of_ne_zero
      (Nat.ne_of_gt (Nat.div_pos (show cfg.writeSize ≤ 8 by
        rcases cfg.writeSize_cases with h | h | h <;> omega) hpos))
    have hlast := h k (by omega)
    rw [hk, Nat.succ_mul] at height
    omega
  · intro h
    refine ⟨⟨⟨fun k hk => ?_, Nat.le_of_eq (Nat.zero_add _)⟩, fun k hk => ?_⟩, Nat.le_refl _⟩
    · have hmul := Nat.mul_le_mul_right cfg.writeSize hk
      rw [Nat.succ_mul, hlogical] at hmul
      omega
    · have hmul := Nat.mul_le_mul_right cfg.writeSize hk
      rw [Nat.succ_mul, height] at hmul
      omega

theorem initAccesses_inBounds (cfg : Config) (stack : Raw8) (s : State) :
    (∀ x ∈ initAccesses cfg (.working stack) s, x.InBounds cfg) ↔
      cfg.logicalSize + 8 ≤ cfg.backingSize ∧ ¬ Stray cfg s.store (replayStore cfg s.store).1 := by
  have hread := Driver.working_readOk stack
  have hbase : wearLevelingReadConsolidated cfg (.working stack) (wearLevelingClearCache cfg s) =
      (.success, { s with cache := baseCache cfg s.store, writeAddress := cfg.logBase }) :=
    readConsolidated_of hread rfl
  have hcache : Access.InBounds cfg (.cache 0 cfg.logicalSize) := Nat.le_of_eq (Nat.zero_add _)
  have hconsolidate : ∀ x ∈ consolidateAccesses cfg, x.InBounds cfg := by
    rw [consolidateAccesses, List.forall_mem_cons, List.forall_mem_singleton]
    exact ⟨hcache, Nat.le_refl _⟩
  have hloop := loopAccesses_inBounds (m := s.store) hread cfg.backingSize (baseCache cfg s.store)
    (logBase_aligned cfg) (Nat.le_add_left _ _)
  simp only [initAccesses, hbase, playbackAccesses, List.forall_mem_cons, List.forall_mem_append,
    readConsolidatedAccesses_inBounds, hloop, replayStore]
  refine ⟨fun h => ⟨h.2.1, h.2.2.1⟩, fun h => ⟨hcache, h.1, h.2, ?_⟩⟩
  split
  · exact hconsolidate
  · exact List.forall_mem_nil _

theorem init_cache (cfg : Config) (stack : Raw8) (s : State) :
    (wearLevelingInit cfg (.working stack) s).2.cache =
      (playLoop cfg (.working stack) s.store cfg.backingSize cfg.logBase (baseCache cfg s.store)).2.2 := by
  have hok := Driver.working_ok stack
  have hbase : wearLevelingReadConsolidated cfg (.working stack) (wearLevelingClearCache cfg s) =
      (.success, { s with cache := baseCache cfg s.store, writeAddress := cfg.logBase }) :=
    readConsolidated_of (Driver.working_readOk stack) rfl
  have hplay : ∀ s, (wearLevelingPlaybackLog cfg (.working stack) s).1 ≠ .failed ∧
      (wearLevelingPlaybackLog cfg (.working stack) s).2.cache =
        (playLoop cfg (.working stack) s.store cfg.backingSize cfg.logBase s.cache).2.2 := by
    intro s
    simp only [wearLevelingPlaybackLog]
    split
    · rw [consolidateForce_of_ok hok, (consolidateForce_spec cfg (.working stack) _).1]
      exact ⟨Status.noConfusion, rfl⟩
    · rw [(consolidateIfNeeded_spec cfg (.working stack) _).1]
      exact ⟨consolidateIfNeeded_of_ok hok _, rfl⟩
  simp only [wearLevelingInit, hbase]
  obtain ⟨h₁, h₂⟩ := hplay
    { s with cache := baseCache cfg s.store, writeAddress := cfg.logBase }
  rw [if_pos (show (Driver.working stack).initOk = true from rfl), if_neg Status.noConfusion,
    if_neg h₁, h₂]

/-- An initialisation on a store with content `m`, whatever was in memory before: its accesses are in
bounds, its loop ends, and it keeps the effect of the well-formed entries up to the first one that is
not, and of no other. -/
structure PlaysSafely (cfg : Config) (stack : Raw8) (m : Mem UInt8) : Prop where
  inBounds : ∀ s : State, s.store = m →
    ∀ x ∈ initAccesses cfg (.working stack) s, x.InBounds cfg
  terminates : ∀ c fuel, cfg.backingSize ≤ fuel →
    playLoop cfg (.working stack) m fuel cfg.logBase c =
      playLoop cfg (.working stack) m cfg.backingSize cfg.logBase c
  effect : ∀ s : State, s.store = m →
    (wearLevelingInit cfg (.working stack) s).2.cache = (replayStore cfg m).2

/-- **Total playback.** For every content of the store: exactly if the checksum fits into the store
and the well-formed entries do not end at a stray one. -/
theorem plays_safely (cfg : Config) (stack : Raw8) (m : Mem UInt8) :
    PlaysSafely cfg stack m ↔
      cfg.logicalSize + 8 ≤ cfg.backingSize ∧ ¬ Stray cfg m (replayStore cfg m).1 := by
  constructor
  · intro h
    exact (initAccesses_inBounds cfg stack (.powerUp m)).mp (h.inBounds (.powerUp m) rfl)
  · intro h
    refine ⟨?_, fun c fuel hfuel => ?_, ?_⟩
    · rintro s rfl
      exact (initAccesses_inBounds cfg stack s).mpr h
    · exact playLoop_fuel fuel cfg.backingSize c (by omega) (by omega)
    · rintro s rfl
      rw [init_cache]
      exact playLoop_replayFormat (Driver.working_readOk stack) cfg.backingSize _ h.2

/-- An entry of length 6 for address 0: its data would be the bytes 3 to 8 of an entry of 8 bytes. -/
theorem six_bytes_stray :
    ¬ PlaysSafely .tiny (fun _ => 0) fun x => if x = 16 then 0x30 else 0 := by
  intro h
  have hentry := h.inBounds (.powerUp fun x => if x = 16 then 0x30 else 0) rfl (.entry 3 6)
    (by decide +kernel)
  exact absurd hentry (by decide)

end WearLeveling
end VialQmk
