import VialQmk.WearLeveling.Log

/-!
# WearLeveling.Interface

What `wear_leveling_init`, `wear_leveling_erase` and `wear_leveling_write` do to the log, whatever
operations fail. A call leaves the store `Fresh` (consolidated from the cache, or erased), or it
appends to the log, or it fails.
-/

namespace VialQmk
namespace WearLeveling

open Lib

/-- The log replays to the cache, and the next entry goes to its end. -/
structure Sound (cfg : Config) (s : State) : Prop where
  log : LogInv cfg s.store s.writeAddress s.cache
  fits : Fits cfg s.cache

/-- The log is empty, and the store below it replays to the cache: it was consolidated or erased. -/
structure Fresh (cfg : Config) (s : State) : Prop where
  store : s.store = consolidatedStore cfg s.cache ∨ ((s.store = fun _ => 0) ∧ s.cache = fun _ => 0)
  writeAddress : s.writeAddress = cfg.logBase

section Fresh

variable {cfg : Config} {s s' : State}

theorem Fresh.log (h : Fresh cfg s) (hfits : Fits cfg s.cache) :
    LogInv cfg s.store s.writeAddress s.cache := by
  rw [h.writeAddress]
  rcases h.store with hs | ⟨hs, hc⟩
  · rw [hs]
    exact consolidated_logInv hfits
  · rw [hs, hc]
    exact erased_logInv cfg

theorem Fresh.congr (h : Fresh cfg s) (hstore : s'.store = s.store) (hcache : s'.cache = s.cache)
    (haddress : s'.writeAddress = s.writeAddress) : Fresh cfg s' :=
  ⟨by rw [hstore, hcache]; exact h.store, haddress.trans h.writeAddress⟩

theorem Consolidated.fresh (h : Consolidated cfg s s') (hcache : s'.cache = s.cache) : Fresh cfg s' :=
  ⟨.inl (by rw [h.store, hcache]), h.writeAddress⟩

theorem Broken.log (h : Broken cfg s s') :
    LogInv cfg s'.store s'.writeAddress (baseCache cfg s'.store) := by
  rw [h.writeAddress]
  exact ⟨fun _ _ => .nil _ _, fun _ => h.blank⟩

end Fresh

section Init

variable {cfg : Config} {drv : Driver} {s : State} {w : Nat} {c : Cache}

theorem bulkReadOk_of (hread : ∀ a, drv.readOk a = true) (a n : Nat) :
    bulkReadOk cfg drv a n = true := by
  simp [bulkReadOk, hread]

theorem readChecksum_of (hread : ∀ a, drv.readOk a = true) (m : Mem UInt8) :
    readChecksum cfg drv m = m.readBlock cfg.logicalSize 8 := by
  refine List.ext_getElem (by simp [readChecksum]) fun i h₁ h₂ => ?_
  rw [Mem.readBlock_getElem]
  simp [readChecksum, bulkReadOk_of hread]

theorem readConsolidated_of (hread : ∀ a, drv.readOk a = true) (haddress : s.writeAddress = cfg.logBase) :
    wearLevelingReadConsolidated cfg drv s = (.success, { s with cache := baseCache cfg s.store }) := by
  rw [wearLevelingReadConsolidated, if_pos (bulkReadOk_of hread _ _), baseCache]
  dsimp only
  rw [readChecksum_of hread]
  split
  · rfl
  · rw [wearLevelingClearCache, ← haddress]

theorem playback_of_log (hread : ∀ a, drv.readOk a = true) (h : LogInv cfg s.store w c)
    (hcache : s.cache = baseCache cfg s.store) :
    wearLevelingPlaybackLog cfg drv s =
      wearLevelingConsolidateIfNeeded cfg drv { s with cache := c, writeAddress := w } := by
  obtain ⟨fuel, hfuel, hloop⟩ := playLoop_of_plays (h.plays drv hread) cfg.backingSize (by omega)
  rw [playLoop_end (hread w) h.blank] at hloop
  rw [wearLevelingPlaybackLog, hcache, hloop]
  rfl

theorem init_of_log (hinit : drv.initOk = true) (hread : ∀ a, drv.readOk a = true)
    (h : LogInv cfg s.store w c) :
    wearLevelingInit cfg drv s =
      let r := wearLevelingConsolidateIfNeeded cfg drv { s with cache := c, writeAddress := w }
      if r.1 = .failed then (r.1, wearLevelingClearCache cfg r.2) else r := by
  have hbase : wearLevelingReadConsolidated cfg drv (wearLevelingClearCache cfg s) =
      (.success, { s with cache := baseCache cfg s.store, writeAddress := cfg.logBase }) :=
    readConsolidated_of hread rfl
  have hplay := playback_of_log
    (s := { s with cache := baseCache cfg s.store, writeAddress := cfg.logBase }) hread h rfl
  simp only [wearLevelingInit, if_pos hinit, hbase, hplay]
  rw [if_neg (by decide)]

theorem init_fits (cfg : Config) (drv : Driver) (s : State) :
    Fits cfg (wearLevelingInit cfg drv s).2.cache := by
  have hzero : ∀ s, Fits cfg (wearLevelingClearCache cfg s).cache := fun _ _ _ => rfl
  have hread : Fits cfg (wearLevelingReadConsolidated cfg drv (wearLevelingClearCache cfg s)).2.cache := by
    simp only [wearLevelingReadConsolidated]
    split
    · split
      · exact consolidatedCache_fits _
      · exact hzero _
    · exact hzero _
  have hplay : ∀ s, Fits cfg s.cache → Fits cfg (wearLevelingPlaybackLog cfg drv s).2.cache := by
    intro s hs
    have hloop := playLoop_fits drv s.store cfg.backingSize cfg.logBase hs
    simp only [wearLevelingPlaybackLog]
    split
    · rw [(consolidateForce_spec cfg drv _).1]
      exact hloop
    · rw [(consolidateIfNeeded_spec cfg drv _).1]
      exact hloop
  simp only [wearLevelingInit]
  split
  · split
    · exact hzero _
    · split
      · exact hzero _
      · exact hplay _ hread
  · exact hzero _

/-- How `wear_leveling_init` ends when the log of `s` replays to `c`. -/
inductive Inits (cfg : Config) (s : State) (w : Nat) (c : Cache) (r : Status × State) : Prop where
  | success (status : r.1 = .success) (store : r.2.store = s.store) (writeAddress : r.2.writeAddress = w)
      (cache : r.2.cache = c)
  | consolidated (status : r.1 = .consolidated) (fresh : Fresh cfg r.2) (cache : r.2.cache = c)
  | broken (status : r.1 = .failed) (broken : Broken cfg s r.2) (cache : r.2.cache = fun _ => 0)
  | failed (status : r.1 = .failed) (store : r.2.store = s.store) (cache : r.2.cache = fun _ => 0)

theorem init_spec (hread : ∀ a, drv.readOk a = true) (h : LogInv cfg s.store w c) :
    Inits cfg s w c (wearLevelingInit cfg drv s) := by
  cases hinit : drv.initOk with
  | false =>
    rw [wearLevelingInit, hinit]
    exact .failed rfl rfl rfl
  | true =>
    obtain ⟨h₁, -, h₃⟩ := consolidateIfNeeded_spec cfg drv
      { s with cache := c, writeAddress := w }
    rw [init_of_log hinit hread h]
    generalize wearLevelingConsolidateIfNeeded cfg drv { s with cache := c, writeAddress := w } = r
      at h₁ h₃
    dsimp only
    rcases h₃ with ⟨-, rfl⟩ | ⟨hst, hc⟩ | ⟨hst, hb⟩ | ⟨hst, hs, -, -⟩
    · exact .success rfl rfl rfl rfl
    · rw [if_neg (by rw [hst]; decide)]
      exact .consolidated hst (hc.fresh h₁) h₁
    · rw [if_pos hst]
      exact .broken hst ⟨hb.erased, rfl, hb.blank⟩ rfl
    · rw [if_pos hst]
      exact .failed hst hs rfl

end Init

section Erase

variable (cfg : Config) (drv : Driver) (s : State)

/-- How `wear_leveling_erase` ends: erased, or before the erase, or with the erase failed. -/
inductive Erases (cfg : Config) (s : State) (r : Status × State) : Prop where
  | erased (fresh : Fresh cfg r.2) (cache : r.2.cache = fun _ => 0)
  | locked (status : r.1 = .failed) (store : r.2.store = s.store) (cache : r.2.cache = s.cache)
      (writeAddress : r.2.writeAddress = s.writeAddress)
  | failed (status : r.1 = .failed) (store : r.2.store = s.store) (cache : r.2.cache = fun _ => 0)

theorem erase_spec : Erases cfg s (wearLevelingErase cfg drv s) := by
  obtain ⟨u₁, u₂, u₃, -⟩ := wearLevelingUnlock_frame drv s
  simp only [wearLevelingErase]
  generalize wearLevelingUnlock drv s = u at u₁ u₂ u₃
  split
  · obtain ⟨l₁, l₂, l₃, -⟩ := wearLevelingLock_frame drv u.2
    exact .locked rfl (l₁.trans u₁) (l₂.trans u₂) (l₃.trans u₃)
  · obtain ⟨l₁, l₂, l₃, -⟩ := wearLevelingLock_frame drv
      (wearLevelingClearCache cfg (backingStoreErase drv u.2).2)
    cases hok : drv.ok u.2.ops.length with
    | true =>
      have hfresh : Fresh cfg (wearLevelingClearCache cfg (backingStoreErase drv u.2).2) :=
        ⟨.inr ⟨by simp [wearLevelingClearCache, backingStoreErase, hok], rfl⟩, rfl⟩
      split
      · exact .erased (hfresh.congr l₁ l₂ l₃) l₂
      · exact .erased hfresh rfl
    | false =>
      have hs : (wearLevelingClearCache cfg (backingStoreErase drv u.2).2).store = s.store := by
        simpa [wearLevelingClearCache, backingStoreErase, hok] using u₁
      split
      · exact .failed (by simp [hok]) (l₁.trans hs) l₂
      · exact .failed (by simp [hok]) hs rfl

end Erase

section Write

variable {cfg : Config} {drv : Driver} {s : State} {c : Cache} {address : Nat} {value : List UInt8}

/-- How a write ends that is in range and changes the cache, when the log of `s` replays to `c`. -/
inductive WriteEnds (cfg : Config) (s : State) (c : Cache) (address : Nat) (value : List UInt8)
    (r : Status × State) : Prop where
  | success (status : r.1 = .success) (c' : Cache) (log : LogInv cfg r.2.store r.2.writeAddress c')
      (exact : cfg.logicalSize ≤ maxLogicalSize → c' = c.writeBlock address value)
      (room : r.2.writeAddress < cfg.backingSize)
  | fresh (status : r.1 ≠ .success) (fresh : Fresh cfg r.2) (erased : .erase true ∈ newOps s r.2)
  | broken (status : r.1 = .failed) (broken : Broken cfg s r.2)
  | failed (status : r.1 = .failed) (w : Nat) (c' : Cache) (log : LogInv cfg r.2.store w c')
      (n j : Nat) (le : n ≤ value.length)
      (part : j = 0 ∨ (n < value.length ∧
        j < (nextEntry cfg (address + n) (value.drop n)).words ∧ r.2.writeAddress ≠ w))
      (exact : cfg.logicalSize ≤ maxLogicalSize → c' = tornCache cfg c address value n j)
      (within : w < cfg.backingSize → r.2.writeAddress ≤ w) (cut : r.2.writeAddress = w ∨ Cut s r.2)

theorem WriteEnds.lock {r r' : Status × State} (h : WriteEnds cfg s c address value r)
    (hstatus : r'.1 = r.1 ∨ r'.1 = .failed) (hstore : r'.2.store = r.2.store)
    (hcache : r'.2.cache = r.2.cache) (haddress : r'.2.writeAddress = r.2.writeAddress)
    (hops : r.2.ops <+: r'.2.ops) : WriteEnds cfg s c address value r' := by
  have hfail : r.1 = .failed → r'.1 = .failed := by
    intro h
    rcases hstatus with h' | h'
    · rw [h', h]
    · exact h'
  cases h with
  | success status c' log exact room =>
    rw [← hstore] at log
    rcases hstatus with h' | h'
    · rw [← haddress] at log room
      exact .success (h'.trans status) c' log exact room
    · refine .failed h' r.2.writeAddress c' log value.length 0 (Nat.le_refl _) (.inl rfl) (fun hmax => ?_)
        (fun _ => Nat.le_of_eq haddress) (.inl haddress)
      rw [exact hmax, tornCache, if_pos rfl, List.take_length]
  | fresh status fresh erased =>
    refine .fresh ?_ (fresh.congr hstore hcache haddress)
      (newOps_mono (List.prefix_refl _) hops erased)
    rcases hstatus with h' | h'
    · rw [h']
      exact status
    · rw [h']
      decide
  | broken status broken =>
    exact .broken (hfail status) ⟨newOps_mono (List.prefix_refl _) hops broken.erased,
      haddress.trans broken.writeAddress, fun x hx => by rw [hstore, broken.blank x hx]⟩
  | failed status w c' log n j le part exact within cut =>
    rw [← hstore] at log
    rw [← haddress] at part within cut
    exact .failed (hfail status) w c' log n j le part exact within
      (cut.imp_right fun h => h.mono (List.prefix_refl _) hops)

theorem writeAndConsolidate_spec (cfg : Config) (drv : Driver)
    (h : LogInv cfg s.store s.writeAddress c) (hfit : address + value.length ≤ cfg.logicalSize)
    (hvalue : value ≠ []) :
    let r := writeAndConsolidate cfg drv s address value
    s.ops <+: r.2.ops ∧ WriteEnds cfg s c address value r := by
  obtain ⟨w₁, w₂, w₃⟩ := writeRaw_spec cfg drv value.length s c address value (Nat.le_refl _) h hfit
  simp only [writeAndConsolidate]
  generalize wearLevelingWriteRaw cfg drv value.length s address value = raw at w₁ w₂ w₃
  cases w₃ with
  | success status c' log exact room =>
    have hroom := room.resolve_left hvalue
    rw [if_pos status, wearLevelingConsolidateIfNeeded, if_neg (Nat.not_le.mpr hroom)]
    exact ⟨w₂, .success rfl c' log exact hroom⟩
  | consolidated status consolidated =>
    have hne : raw.1 ≠ .success := by rw [status]; decide
    rw [if_neg hne]
    exact ⟨w₂, .fresh hne (consolidated.fresh w₁) consolidated.erased⟩
  | broken status broken =>
    rw [if_neg (by rw [status]; decide)]
    exact ⟨w₂, .broken status broken⟩
  | failed status w c' log n j le part exact within cut =>
    rw [if_neg (by rw [status]; decide)]
    exact ⟨w₂, .failed status w c' log n j le part exact within (.inr cut)⟩

theorem write_spec (cfg : Config) (drv : Driver)
    (h : LogInv cfg s.store s.writeAddress c) (hfit : address + value.length ≤ cfg.logicalSize)
    (hne : s.cache.readBlock address value.length ≠ value) :
    let r := wearLevelingWrite cfg drv s address value
    s.ops <+: r.2.ops ∧ WriteEnds cfg s c address value r := by
  have hvalue : value ≠ [] := by
    rintro rfl
    exact hne rfl
  simp only [wearLevelingWrite]
  rw [if_neg (Nat.not_lt.mpr hfit), if_neg hne]
  obtain ⟨u₁, -, u₃, u₄⟩ := wearLevelingUnlock_frame drv
    { s with cache := s.cache.writeBlock address value }
  generalize wearLevelingUnlock drv { s with cache := s.cache.writeBlock address value } = u
    at u₁ u₃ u₄
  have hlog : LogInv cfg u.2.store u.2.writeAddress c := by rw [u₁, u₃]; exact h
  split
  · obtain ⟨l₁, -, l₃, l₄⟩ := wearLevelingLock_frame drv u.2
    refine ⟨u₄.trans l₄, .failed rfl u.2.writeAddress c ?_ 0 0 (Nat.zero_le _) (.inl rfl) (fun _ => ?_)
      (fun _ => Nat.le_of_eq l₃) (.inl l₃)⟩
    · rw [l₁]
      exact hlog
    · simp [tornCache, Mem.writeBlock]
  · obtain ⟨w₂, w₃⟩ := writeAndConsolidate_spec cfg drv hlog hfit hvalue
    generalize writeAndConsolidate cfg drv u.2 address value = raw at w₂ w₃
    have hends : WriteEnds cfg s c address value raw := by
      cases w₃ with
      | success status c' log exact room => exact .success status c' log exact room
      | fresh status fresh erased =>
        exact .fresh status fresh (newOps_mono u₄ (List.prefix_refl _) erased)
      | broken status broken => exact .broken status (broken.mono u₄)
      | failed status w c' log n j le part exact within cut =>
        exact .failed status w c' log n j le part exact within
          (cut.imp_right fun h => h.mono u₄ (List.prefix_refl _))
    split
    · obtain ⟨l₁, l₂, l₃, l₄⟩ := wearLevelingLock_frame drv raw.2
      refine ⟨u₄.trans (w₂.trans l₄), hends.lock ?_ l₁ l₂ l₃ l₄⟩
      dsimp only
      split
      · exact .inr rfl
      · exact .inl rfl
    · exact ⟨u₄.trans w₂, hends⟩

theorem writeRaw_consolidated (cfg : Config) (drv : Driver) (fuel : Nat) :
    ∀ (s : State) (address : Nat) (p : List UInt8),
      let r := wearLevelingWriteRaw cfg drv fuel s address p
      r.2.cache = s.cache ∧ (r.1 = .consolidated → Fresh cfg r.2) := by
  induction fuel with
  | zero => exact fun _ _ _ => ⟨rfl, nofun⟩
  | succ fuel ih =>
    intro s address p
    by_cases hp : p = []
    · subst hp
      exact ⟨rfl, nofun⟩
    obtain ⟨hraw, hwords⟩ := nextEntry_raw8 cfg address hp
    obtain ⟨a₁, -, a₃⟩ := appendWords_spec cfg drv ((nextEntry cfg address p).storedWords cfg)
      (storedWords_length hraw hwords) s
    simp only [wearLevelingWriteRaw, if_pos (List.length_pos_iff.mpr hp)]
    generalize appendWords cfg drv s ((nextEntry cfg address p).storedWords cfg) = r at a₁ a₃
    split
    · obtain ⟨i₁, i₂⟩ := ih r.2 (address + (nextEntry cfg address p).consumed)
        (p.drop (nextEntry cfg address p).consumed)
      exact ⟨i₁.trans a₁, i₂⟩
    · refine ⟨a₁, fun h => ?_⟩
      cases a₃ with
      | consolidated _ consolidated => exact consolidated.fresh a₁
      | success status | broken status | failed status => rw [status] at h; cases h

theorem writeAndConsolidate_consolidated (cfg : Config) (drv : Driver) (s : State) (address : Nat)
    (value : List UInt8) :
    let r := writeAndConsolidate cfg drv s address value
    r.2.cache = s.cache ∧ (r.1 = .consolidated → Fresh cfg r.2) := by
  obtain ⟨w₁, w₂⟩ := writeRaw_consolidated cfg drv value.length s address value
  simp only [writeAndConsolidate]
  generalize wearLevelingWriteRaw cfg drv value.length s address value = raw at w₁ w₂
  split
  · obtain ⟨n₁, -, n₃⟩ := consolidateIfNeeded_spec cfg drv raw.2
    generalize wearLevelingConsolidateIfNeeded cfg drv raw.2 = r at n₁ n₃
    refine ⟨n₁.trans w₁, fun h => ?_⟩
    rcases n₃ with ⟨-, rfl⟩ | ⟨-, consolidated⟩ | ⟨status, -⟩ | ⟨status, -⟩
    · cases h
    · exact consolidated.fresh n₁
    · rw [status] at h; cases h
    · rw [status] at h; cases h
  · exact ⟨w₁, w₂⟩

theorem write_consolidated (cfg : Config) (drv : Driver) (s : State)
    (hfit : address + value.length ≤ cfg.logicalSize) :
    let r := wearLevelingWrite cfg drv s address value
    r.2.cache = s.cache.writeBlock address value ∧ (r.1 = .consolidated → Fresh cfg r.2) := by
  simp only [wearLevelingWrite]
  rw [if_neg (Nat.not_lt.mpr hfit)]
  split
  · rename_i heq
    refine ⟨?_, nofun⟩
    conv_rhs => rw [← heq]
    exact (Mem.writeBlock_readBlock _ _ _).symm
  · obtain ⟨-, u₂, -, -⟩ := wearLevelingUnlock_frame drv
      { s with cache := s.cache.writeBlock address value }
    generalize wearLevelingUnlock drv { s with cache := s.cache.writeBlock address value } = u at u₂
    split
    · exact ⟨(wearLevelingLock_frame drv u.2).2.1.trans u₂, nofun⟩
    · obtain ⟨w₁, w₂⟩ := writeAndConsolidate_consolidated cfg drv u.2 address value
      generalize writeAndConsolidate cfg drv u.2 address value = raw at w₁ w₂
      split
      · obtain ⟨l₁, l₂, l₃, -⟩ := wearLevelingLock_frame drv raw.2
        refine ⟨l₂.trans (w₁.trans u₂), fun h => ?_⟩
        dsimp only at h
        split at h
        · cases h
        · exact (w₂ h).congr l₁ l₂ l₃
      · exact ⟨w₁.trans u₂, w₂⟩

end Write

section Working

variable {cfg : Config} {drv : Driver}

theorem Driver.working_ok (stack : Raw8) (n : Nat) : (Driver.working stack).ok n = true := rfl

theorem Driver.working_readOk (stack : Raw8) (a : Nat) : (Driver.working stack).readOk a = true := rfl

theorem lock_of_ok (hok : ∀ n, drv.ok n = true) (s : State) :
    (wearLevelingUnlock drv s).1 ≠ .failure ∧ (wearLevelingLock drv s).1 ≠ .failure := by
  constructor
  · unfold wearLevelingUnlock
    split <;> simp [hok]
  · unfold wearLevelingLock
    split <;> simp [hok]

theorem writeBulk_of_ok (hok : ∀ n, drv.ok n = true) (vs : List (List UInt8)) :
    ∀ (s : State) (address : Nat), (backingStoreWriteBulk cfg drv s address vs).1 = true := by
  induction vs with
  | nil => exact fun _ _ => rfl
  | cons v vs ih =>
    intro s address
    simp only [backingStoreWriteBulk, backingStoreWrite_fst, hok, if_true]
    exact ih _ _

theorem consolidateForce_of_ok (hok : ∀ n, drv.ok n = true) (s : State) :
    (wearLevelingConsolidateForce cfg drv s).1 = .consolidated := by
  simp [wearLevelingConsolidateForce, wearLevelingWriteConsolidated, writeConsolidatedData,
    writeBulk_of_ok hok, hok]

theorem consolidateIfNeeded_of_ok (hok : ∀ n, drv.ok n = true) (s : State) :
    (wearLevelingConsolidateIfNeeded cfg drv s).1 ≠ .failed := by
  simp only [wearLevelingConsolidateIfNeeded]
  split
  · rw [consolidateForce_of_ok hok]
    decide
  · exact Status.noConfusion

theorem appendWords_of_ok (hok : ∀ n, drv.ok n = true) (vs : List (List UInt8)) :
    ∀ s : State, (appendWords cfg drv s vs).1 ≠ .failed := by
  induction vs with
  | nil => exact fun _ => by simp [appendWords]
  | cons v vs ih =>
    intro s
    have hraw : (wearLevelingAppendRaw cfg drv s v).1 ≠ .failed := by
      simp only [wearLevelingAppendRaw, backingStoreWrite_fst, hok, if_true]
      exact consolidateIfNeeded_of_ok hok _
    simp only [appendWords]
    split
    · exact ih _
    · exact hraw

theorem writeRaw_of_ok (hok : ∀ n, drv.ok n = true) (fuel : Nat) :
    ∀ (s : State) (address : Nat) (p : List UInt8),
      (wearLevelingWriteRaw cfg drv fuel s address p).1 ≠ .failed := by
  induction fuel with
  | zero => exact fun _ _ _ => by simp [wearLevelingWriteRaw]
  | succ fuel ih =>
    intro s address p
    simp only [wearLevelingWriteRaw]
    split
    · split
      · exact ih _ _ _
      · exact appendWords_of_ok hok _ _
    · exact Status.noConfusion

theorem write_of_ok (hok : ∀ n, drv.ok n = true) (s : State) {address : Nat} {value : List UInt8}
    (hfit : address + value.length ≤ cfg.logicalSize) :
    (wearLevelingWrite cfg drv s address value).1 ≠ .failed := by
  have hraw : ∀ s, (writeAndConsolidate cfg drv s address value).1 ≠ .failed := by
    intro s
    simp only [writeAndConsolidate]
    split
    · exact consolidateIfNeeded_of_ok hok _
    · exact writeRaw_of_ok hok _ _ _ _
  simp only [wearLevelingWrite]
  rw [if_neg (Nat.not_lt.mpr hfit)]
  split
  · exact Status.noConfusion
  · rw [if_neg (lock_of_ok hok _).1]
    split
    · rw [if_neg (lock_of_ok hok _).2]
      exact hraw _
    · exact hraw _

theorem erase_of_ok (hok : ∀ n, drv.ok n = true) (s : State) :
    (wearLevelingErase cfg drv s).1 = .success := by
  simp only [wearLevelingErase]
  rw [if_neg (lock_of_ok hok _).1]
  split <;> simp [hok, (lock_of_ok hok _).2]

variable {s : State} {w : Nat} {c : Cache}

theorem init_working (stack : Raw8) (h : LogInv cfg s.store w c) (hfits : Fits cfg c) :
    let r := wearLevelingInit cfg (.working stack) s
    r.1 ≠ .failed ∧ r.2.cache = c ∧ Sound cfg r.2 := by
  have hok := Driver.working_ok stack
  have hinit : (wearLevelingInit cfg (.working stack) s).1 ≠ .failed := by
    have hne : (wearLevelingConsolidateIfNeeded cfg (.working stack)
        { s with cache := c, writeAddress := w }).1 ≠ .failed := consolidateIfNeeded_of_ok hok _
    rw [init_of_log rfl (Driver.working_readOk stack) h]
    dsimp only
    rw [if_neg hne]
    exact hne
  have hspec := init_spec (Driver.working_readOk stack) h
  dsimp only
  generalize wearLevelingInit cfg (.working stack) s = r at hinit hspec
  refine ⟨hinit, ?_⟩
  cases hspec with
  | success _ store writeAddress cache =>
    refine ⟨cache, ?_, cache ▸ hfits⟩
    rw [store, writeAddress, cache]
    exact h
  | consolidated _ fresh cache =>
    exact ⟨cache, fresh.log (cache ▸ hfits), cache ▸ hfits⟩
  | broken status | failed status => exact absurd status hinit

/-- What `wear_leveling_read` returns after a restart on a working store. -/
def restartRead (cfg : Config) (stack : Raw8) (s : State) (address length : Nat) :
    Status × List UInt8 :=
  wearLevelingRead cfg (wearLevelingInit cfg (.working stack) s).2 address length

theorem restartRead_of_log (stack : Raw8) (h : LogInv cfg s.store w c) (hfits : Fits cfg c)
    {address length : Nat} (hfit : address + length ≤ cfg.logicalSize) :
    restartRead cfg stack s address length = (.success, c.readBlock address length) := by
  rw [restartRead, wearLevelingRead, if_neg (Nat.not_lt.mpr hfit), (init_working stack h hfits).2.1]

end Working
end WearLeveling
end VialQmk
