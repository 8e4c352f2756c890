import VialQmk.WearLeveling.Model

/-!
# WearLeveling.Steps

What each function of `wear_leveling.c` does to the store, the write address and the cache, whatever
operations fail. A function that fails either left the words it stored before the failure, or it
erased the store and then failed to write the consolidated data (`Broken`).
-/

namespace VialQmk
namespace WearLeveling

open Lib

def newOps (s s' : State) : List StoreOp := s'.ops.drop s.ops.length

/-- A word could not be written, or the store could not be erased. -/
def Cut (s s' : State) : Prop := (∃ a v, .write a v false ∈ newOps s s') ∨ .erase false ∈ newOps s s'

/-- The store was erased, and the consolidated data not written completely. The log is empty. -/
structure Broken (cfg : Config) (s s' : State) : Prop where
  erased : .erase true ∈ newOps s s'
  writeAddress : s'.writeAddress = cfg.logBase
  blank : ∀ x, cfg.logBase ≤ x → s'.store x = 0

/-- The store after a successful consolidation of the cache. -/
def consolidatedStore (cfg : Config) (c : Cache) : Mem UInt8 :=
  (Mem.writeBlock (fun _ => 0) 0 (cacheBytes cfg c)).writeBlock cfg.logicalSize (checksumBytes cfg c)

/-- The store was erased, and the cache written to it as the consolidated data. -/
structure Consolidated (cfg : Config) (s s' : State) : Prop where
  erased : .erase true ∈ newOps s s'
  writeAddress : s'.writeAddress = cfg.logBase
  store : s'.store = consolidatedStore cfg s.cache

section NewOps

variable {cfg : Config} {s₀ s s' s'' : State} {op : StoreOp}

theorem newOps_mono (h₀ : s₀.ops <+: s.ops) (h₁ : s'.ops <+: s''.ops) (h : op ∈ newOps s s') :
    op ∈ newOps s₀ s'' := by
  obtain ⟨l, hl⟩ := h₁
  have hlen := h₀.length_le
  have h : op ∈ newOps s₀ s' := List.drop_subset_drop_left _ hlen h
  rw [newOps, ← hl, List.drop_append]
  exact List.mem_append_left _ h

theorem newOps_trans (h : s.ops <+: s'.ops) (h' : s'.ops <+: s''.ops) :
    newOps s s'' = newOps s s' ++ newOps s' s'' := by
  obtain ⟨l, hl⟩ := h
  obtain ⟨l', hl'⟩ := h'
  simp only [newOps, ← hl', ← hl, List.append_assoc, List.drop_left]
  rw [← List.append_assoc, List.drop_left]

theorem Broken.mono (h : Broken cfg s s') (h₀ : s₀.ops <+: s.ops) : Broken cfg s₀ s' :=
  ⟨newOps_mono h₀ (List.prefix_refl _) h.erased, h.writeAddress, h.blank⟩

theorem Consolidated.mono (h : Consolidated cfg s s') (h₀ : s₀.ops <+: s.ops)
    (hcache : s.cache = s₀.cache) : Consolidated cfg s₀ s' :=
  ⟨newOps_mono h₀ (List.prefix_refl _) h.erased, h.writeAddress, hcache ▸ h.store⟩

theorem Cut.mono (h : Cut s s') (h₀ : s₀.ops <+: s.ops) (h₁ : s'.ops <+: s''.ops) : Cut s₀ s'' :=
  h.imp (fun ⟨a, v, hop⟩ => ⟨a, v, newOps_mono h₀ h₁ hop⟩) (newOps_mono h₀ h₁)

theorem mem_newOps_of_append {ops : List StoreOp} (h : s'.ops = s.ops ++ ops) (hop : op ∈ ops) :
    op ∈ newOps s s' := by
  rw [newOps, h, List.drop_left]
  exact hop

end NewOps

section Results

variable (drv : Driver) (s : State) (address : Nat) (value : List UInt8)

@[simp] theorem backingStoreUnlock_fst : (backingStoreUnlock drv s).1 = drv.ok s.ops.length := rfl

@[simp] theorem backingStoreLock_fst : (backingStoreLock drv s).1 = drv.ok s.ops.length := rfl

@[simp] theorem backingStoreErase_fst : (backingStoreErase drv s).1 = drv.ok s.ops.length := rfl

@[simp] theorem backingStoreWrite_fst :
    (backingStoreWrite drv s address value).1 = drv.ok s.ops.length := rfl

end Results

section Lock

variable (drv : Driver) (s : State)

theorem wearLevelingUnlock_frame :
    (wearLevelingUnlock drv s).2.store = s.store ∧ (wearLevelingUnlock drv s).2.cache = s.cache ∧
      (wearLevelingUnlock drv s).2.writeAddress = s.writeAddress ∧
      s.ops <+: (wearLevelingUnlock drv s).2.ops := by
  unfold wearLevelingUnlock
  split
  · exact ⟨rfl, rfl, rfl, List.prefix_refl _⟩
  · dsimp only
    split <;> exact ⟨rfl, rfl, rfl, List.prefix_append _ _⟩

theorem wearLevelingLock_frame :
    (wearLevelingLock drv s).2.store = s.store ∧ (wearLevelingLock drv s).2.cache = s.cache ∧
      (wearLevelingLock drv s).2.writeAddress = s.writeAddress ∧
      s.ops <+: (wearLevelingLock drv s).2.ops := by
  unfold wearLevelingLock
  split
  · dsimp only
    split <;> exact ⟨rfl, rfl, rfl, List.prefix_append _ _⟩
  · exact ⟨rfl, rfl, rfl, List.prefix_refl _⟩

end Lock

section Words

variable {cfg : Config}

theorem wordsOf_flatten {buf : List UInt8} (h : buf.length % cfg.writeSize = 0) :
    (wordsOf cfg buf).flatten = buf := by
  have hpart : ∀ n, ((List.range n).map fun k =>
      (buf.drop (k * cfg.writeSize)).take cfg.writeSize).flatten = buf.take (n * cfg.writeSize) := by
    intro n
    induction n with
    | zero => simp
    | succ n ih =>
      rw [List.range_succ, List.map_append, List.flatten_append, ih, Nat.succ_mul, List.take_add]
      simp
  rw [wordsOf, hpart, Nat.div_mul_cancel (Nat.dvd_of_mod_eq_zero h), List.take_length]

theorem wordsOf_count {buf : List UInt8} (h : buf.length % cfg.writeSize = 0) :
    (wordsOf cfg buf).length * cfg.writeSize = buf.length := by
  rw [wordsOf, List.length_map, List.length_range,
    Nat.div_mul_cancel (Nat.dvd_of_mod_eq_zero h)]

theorem wordsOf_length {buf : List UInt8} (h : buf.length % cfg.writeSize = 0) :
    ∀ v ∈ wordsOf cfg buf, v.length = cfg.writeSize := by
  intro v hv
  simp only [wordsOf, List.mem_map, List.mem_range] at hv
  obtain ⟨k, hk, rfl⟩ := hv
  have hdiv := Nat.div_mul_cancel (Nat.dvd_of_mod_eq_zero h)
  have hmul := Nat.mul_le_mul_right cfg.writeSize hk
  rw [hdiv, Nat.succ_mul] at hmul
  simp
  omega

theorem eight_mod (cfg : Config) : 8 % cfg.writeSize = 0 := by
  rcases cfg.writeSize_cases with h | h | h <;> rw [h]

theorem checksumBytes_length (c : Cache) : (checksumBytes cfg c).length = 8 := rfl

@[simp] theorem cacheBytes_length (c : Cache) : (cacheBytes cfg c).length = cfg.logicalSize := by
  simp [cacheBytes]

end Words

section Bulk

variable (cfg : Config) (drv : Driver)

theorem writeBulk_frame (vs : List (List UInt8)) : ∀ (s : State) (address : Nat),
    let r := backingStoreWriteBulk cfg drv s address vs
    r.2.cache = s.cache ∧ r.2.writeAddress = s.writeAddress ∧ s.ops <+: r.2.ops := by
  induction vs with
  | nil => exact fun s _ => ⟨rfl, rfl, List.prefix_refl _⟩
  | cons v vs ih =>
    intro s address
    simp only [backingStoreWriteBulk]
    split
    · obtain ⟨h₁, h₂, h₃⟩ := ih (backingStoreWrite drv s address v).2 (address + cfg.writeSize)
      exact ⟨h₁, h₂, (List.prefix_append _ _).trans h₃⟩
    · exact ⟨rfl, rfl, List.prefix_append _ _⟩

theorem writeBulk_of_true (vs : List (List UInt8)) (hlen : ∀ v ∈ vs, v.length = cfg.writeSize) :
    ∀ (s : State) (address : Nat), (backingStoreWriteBulk cfg drv s address vs).1 = true →
      (backingStoreWriteBulk cfg drv s address vs).2.store =
        s.store.writeBlock address vs.flatten := by
  induction vs with
  | nil => exact fun _ _ _ => rfl
  | cons v vs ih =>
    intro s address h
    simp only [backingStoreWriteBulk] at h ⊢
    split at h
    · rename_i hok
      rw [if_pos hok, ih (fun u hu => hlen u (List.mem_cons_of_mem _ hu)) _ _ h]
      simp only [backingStoreWrite] at hok
      simp only [backingStoreWrite, hok, if_true, List.flatten_cons]
      rw [Mem.writeBlock_append, hlen v List.mem_cons_self]
    · cases h

theorem writeBulk_of_ge (vs : List (List UInt8)) (hlen : ∀ v ∈ vs, v.length = cfg.writeSize) :
    ∀ (s : State) (address : Nat) {x : Nat}, address + vs.length * cfg.writeSize ≤ x →
      (backingStoreWriteBulk cfg drv s address vs).2.store x = s.store x := by
  induction vs with
  | nil => exact fun _ _ _ _ => rfl
  | cons v vs ih =>
    intro s address x hx
    rw [List.length_cons, Nat.succ_mul] at hx
    have hword : (backingStoreWrite drv s address v).2.store x = s.store x := by
      simp only [backingStoreWrite]
      split
      · exact Mem.writeBlock_of_ge (by rw [hlen v List.mem_cons_self]; omega)
      · rfl
    simp only [backingStoreWriteBulk]
    split
    · rw [ih (fun u hu => hlen u (List.mem_cons_of_mem _ hu)) _ _ (by omega), hword]
    · exact hword

end Bulk

section Consolidate

variable (cfg : Config) (drv : Driver) {s : State}

/-- How the write of the consolidated data ends: complete, or with some of it missing. -/
def WritesData (cfg : Config) (s : State) (r : Status × State) : Prop :=
  (r.1 = .consolidated ∧ r.2.store = consolidatedStore cfg s.cache) ∨
  (r.1 = .failed ∧ ∀ x, cfg.logBase ≤ x → r.2.store x = 0)

theorem writeConsolidatedData_spec (hs : s.store = fun _ => 0) :
    let r := writeConsolidatedData cfg drv s
    r.2.cache = s.cache ∧ s.ops <+: r.2.ops ∧ WritesData cfg s r := by
  have hdata : (cacheBytes cfg s.cache).length % cfg.writeSize = 0 := by
    rw [cacheBytes_length]
    exact cfg.logical_mod
  have hsum : (checksumBytes cfg s.cache).length % cfg.writeSize = 0 := eight_mod cfg
  have hblank : ∀ x, cfg.logBase ≤ x →
      (backingStoreWriteBulk cfg drv s 0 (wordsOf cfg (cacheBytes cfg s.cache))).2.store x = 0 := by
    intro x hx
    simp only [Config.logBase] at hx
    rw [writeBulk_of_ge cfg drv _ (wordsOf_length hdata) _ _
      (by rw [wordsOf_count hdata, cacheBytes_length]; omega), hs]
  simp only [writeConsolidatedData]
  obtain ⟨b₁, -, b₃⟩ := writeBulk_frame cfg drv (wordsOf cfg (cacheBytes cfg s.cache)) s 0
  have hbt := writeBulk_of_true cfg drv _ (wordsOf_length hdata) s 0
  generalize backingStoreWriteBulk cfg drv s 0 (wordsOf cfg (cacheBytes cfg s.cache)) = bulk
    at hblank b₁ b₃ hbt
  cases hok : bulk.1 with
  | false => exact ⟨b₁, b₃, .inr ⟨rfl, hblank⟩⟩
  | true =>
    obtain ⟨c₁, -, c₃⟩ := writeBulk_frame cfg drv (wordsOf cfg (checksumBytes cfg s.cache)) bulk.2
      cfg.logicalSize
    have hct := writeBulk_of_true cfg drv _ (wordsOf_length hsum) bulk.2 cfg.logicalSize
    have hge : ∀ x, cfg.logBase ≤ x → (backingStoreWriteBulk cfg drv bulk.2 cfg.logicalSize
        (wordsOf cfg (checksumBytes cfg s.cache))).2.store x = 0 := by
      intro x hx
      rw [writeBulk_of_ge cfg drv _ (wordsOf_length hsum) _ _
        (by rw [wordsOf_count hsum]; exact hx), hblank x hx]
    rw [if_pos rfl]
    generalize backingStoreWriteBulk cfg drv bulk.2 cfg.logicalSize
      (wordsOf cfg (checksumBytes cfg s.cache)) = sum at c₁ c₃ hct hge
    refine ⟨c₁.trans b₁, b₃.trans c₃, ?_⟩
    cases hok' : sum.1 with
    | false => exact .inr ⟨rfl, hge⟩
    | true =>
      refine .inl ⟨rfl, ?_⟩
      dsimp only
      rw [hct hok', hbt hok, hs, wordsOf_flatten hdata, wordsOf_flatten hsum]
      rfl

theorem writeConsolidated_spec (hs : s.store = fun _ => 0) :
    let r := wearLevelingWriteConsolidated cfg drv s
    r.2.cache = s.cache ∧ s.ops <+: r.2.ops ∧ WritesData cfg s r := by
  obtain ⟨u₁, u₂, -, u₄⟩ := wearLevelingUnlock_frame drv s
  obtain ⟨d₁, d₂, d₃⟩ := writeConsolidatedData_spec cfg drv (u₁.trans hs)
  obtain ⟨l₁, l₂, -, l₄⟩ := wearLevelingLock_frame drv
    (writeConsolidatedData cfg drv (wearLevelingUnlock drv s).2).2
  simp only [wearLevelingWriteConsolidated]
  rw [WritesData, u₂] at d₃
  rw [u₂] at d₁
  split
  · refine ⟨l₂.trans d₁, u₄.trans (d₂.trans l₄), ?_⟩
    rw [WritesData, l₁]
    exact d₃
  · exact ⟨d₁, u₄.trans d₂, d₃⟩

/-- How a call ends that had to consolidate: with the cache in the consolidated data, with the old
store if the erase fails, or `Broken`. -/
def Consolidates (cfg : Config) (s : State) (r : Status × State) : Prop :=
  (r.1 = .consolidated ∧ Consolidated cfg s r.2) ∨
  (r.1 = .failed ∧ Broken cfg s r.2) ∨
  (r.1 = .failed ∧ r.2.store = s.store ∧ r.2.writeAddress = s.writeAddress ∧
    .erase false ∈ newOps s r.2)

theorem consolidateForce_spec (s : State) :
    let r := wearLevelingConsolidateForce cfg drv s
    r.2.cache = s.cache ∧ s.ops <+: r.2.ops ∧ Consolidates cfg s r := by
  simp only [wearLevelingConsolidateForce]
  cases hok : drv.ok s.ops.length with
  | false =>
    rw [backingStoreErase_fst, hok, if_neg (by simp)]
    refine ⟨rfl, List.prefix_append _ _, .inr (.inr ⟨rfl, ?_, rfl, ?_⟩)⟩
    · simp [backingStoreErase, hok]
    · exact mem_newOps_of_append rfl (by rw [hok]; exact List.mem_singleton_self _)
  | true =>
    have he : (backingStoreErase drv s).2.store = fun _ => 0 := by simp [backingStoreErase, hok]
    have hmem : StoreOp.erase true ∈ newOps s (backingStoreErase drv s).2 :=
      mem_newOps_of_append rfl (by rw [hok]; exact List.mem_singleton_self _)
    have hpre : s.ops <+: (backingStoreErase drv s).2.ops := List.prefix_append _ _
    obtain ⟨w₁, w₂, w₃⟩ := writeConsolidated_spec cfg drv he
    rw [if_pos (show (backingStoreErase drv s).1 = true from hok)]
    refine ⟨w₁, hpre.trans w₂, ?_⟩
    have herased := newOps_mono (List.prefix_refl _) w₂ hmem
    rcases w₃ with ⟨h, h'⟩ | ⟨h, hblank⟩
    · exact .inl ⟨h, herased, rfl, h'⟩
    · exact .inr (.inl ⟨h, herased, rfl, hblank⟩)

theorem consolidateIfNeeded_spec (s : State) :
    let r := wearLevelingConsolidateIfNeeded cfg drv s
    r.2.cache = s.cache ∧ s.ops <+: r.2.ops ∧
      ((s.writeAddress < cfg.backingSize ∧ r = (.success, s)) ∨ Consolidates cfg s r) := by
  simp only [wearLevelingConsolidateIfNeeded]
  split
  · obtain ⟨h₁, h₂, h₃⟩ := consolidateForce_spec cfg drv s
    exact ⟨h₁, h₂, .inr h₃⟩
  · rename_i h
    exact ⟨rfl, List.prefix_refl _, .inl ⟨Nat.lt_of_not_le h, rfl⟩⟩

end Consolidate

section Append

variable (cfg : Config) (drv : Driver)

/-- How an append ends: the words are stored and there is room left, or the log was consolidated, or
the store is `Broken`, or only the first words are stored. -/
inductive Appends (cfg : Config) (s : State) (vs : List (List UInt8)) (r : Status × State) : Prop where
  | success (status : r.1 = .success) (store : r.2.store = s.store.writeBlock s.writeAddress vs.flatten)
      (writeAddress : r.2.writeAddress = s.writeAddress + vs.length * cfg.writeSize)
      (room : vs = [] ∨ r.2.writeAddress < cfg.backingSize)
  | consolidated (status : r.1 = .consolidated) (consolidated : Consolidated cfg s r.2)
  | broken (status : r.1 = .failed) (broken : Broken cfg s r.2)
  | failed (status : r.1 = .failed) (k : Nat) (le : k ≤ vs.length)
      (store : r.2.store = s.store.writeBlock s.writeAddress (vs.take k).flatten)
      (writeAddress : r.2.writeAddress = s.writeAddress + k * cfg.writeSize) (cut : Cut s r.2)

theorem appendRaw_spec (s : State) (v : List UInt8) :
    let r := wearLevelingAppendRaw cfg drv s v
    r.2.cache = s.cache ∧ s.ops <+: r.2.ops ∧ Appends cfg s [v] r := by
  have hpre : s.ops <+: (backingStoreWrite drv s s.writeAddress v).2.ops := List.prefix_append _ _
  simp only [wearLevelingAppendRaw]
  cases hok : drv.ok s.ops.length with
  | false =>
    have hw : (backingStoreWrite drv s s.writeAddress v).1 = false := hok
    rw [hw, if_neg (by simp)]
    refine ⟨rfl, hpre, .failed rfl 0 (by simp) ?_ (by simp [backingStoreWrite]) (.inl ⟨s.writeAddress, v, ?_⟩)⟩
    · simp [backingStoreWrite, hok, Mem.writeBlock]
    · exact mem_newOps_of_append rfl (by rw [hok]; exact List.mem_singleton_self _)
  | true =>
    have hw : (backingStoreWrite drv s s.writeAddress v).1 = true := hok
    have hstore : (backingStoreWrite drv s s.writeAddress v).2.store =
        s.store.writeBlock s.writeAddress v := by
      simp [backingStoreWrite, hok]
    rw [if_pos hw]
    obtain ⟨h₁, h₂, h₃⟩ := consolidateIfNeeded_spec cfg drv
      { (backingStoreWrite drv s s.writeAddress v).2 with
        writeAddress := s.writeAddress + cfg.writeSize }
    refine ⟨h₁, hpre.trans h₂, ?_⟩
    rcases h₃ with ⟨hroom, he⟩ | ⟨h, hc⟩ | ⟨h, hb⟩ | ⟨h, hs, hwa, herase⟩
    · rw [he]
      exact .success rfl (by simpa using hstore) (by simp) (.inr hroom)
    · exact .consolidated h (hc.mono hpre rfl)
    · exact .broken h (hb.mono hpre)
    · refine .failed h 1 (by simp) ?_ (by simpa using hwa)
        (.inr (newOps_mono hpre (List.prefix_refl _) herase))
      rw [hs, hstore]
      simp

theorem appendWords_spec (vs : List (List UInt8)) (hvs : ∀ v ∈ vs, v.length = cfg.writeSize) :
    ∀ s : State,
      let r := appendWords cfg drv s vs
      r.2.cache = s.cache ∧ s.ops <+: r.2.ops ∧ Appends cfg s vs r := by
  induction vs with
  | nil =>
    intro s
    exact ⟨rfl, List.prefix_refl _, .success rfl rfl (by simp [appendWords]) (.inl rfl)⟩
  | cons v vs ih =>
    intro s
    have hv := hvs v List.mem_cons_self
    obtain ⟨a₁, a₂, a₃⟩ := appendRaw_spec cfg drv s v
    simp only [appendWords]
    generalize hr : wearLevelingAppendRaw cfg drv s v = r at a₁ a₂ a₃
    have hne : ∀ {st : Status}, r.1 = st → st ≠ .success → (if r.1 = .success then
        appendWords cfg drv r.2 vs else r) = r := by
      intro st h h'
      rw [if_neg (h ▸ h')]
    cases a₃ with
    | consolidated h hc =>
      rw [hne h (by decide)]
      exact ⟨a₁, a₂, .consolidated h hc⟩
    | broken h hb =>
      rw [hne h (by decide)]
      exact ⟨a₁, a₂, .broken h hb⟩
    | failed h k hk hs hwa hcut =>
      rw [hne h (by decide)]
      refine ⟨a₁, a₂, .failed h k (by simp at hk ⊢; omega) ?_ hwa hcut⟩
      rw [hs]
      have hk : k = 0 ∨ k = 1 := by simp at hk; omega
      rcases hk with rfl | rfl <;> simp
    | success h hs hwa hroom =>
      have hwa : r.2.writeAddress = s.writeAddress + cfg.writeSize := by simpa using hwa
      have hs : r.2.store = s.store.writeBlock s.writeAddress v := by simpa using hs
      obtain ⟨i₁, i₂, i₃⟩ := ih (fun u hu => hvs u (List.mem_cons_of_mem _ hu)) r.2
      rw [if_pos h]
      have hblock : ∀ us : List (List UInt8), r.2.store.writeBlock r.2.writeAddress us.flatten =
          s.store.writeBlock s.writeAddress (v :: us).flatten := by
        intro us
        rw [hs, hwa, List.flatten_cons, Mem.writeBlock_append, hv]
      refine ⟨i₁.trans a₁, a₂.trans i₂, ?_⟩
      cases i₃ with
      | success h' hs' hwa' hroom' =>
        refine .success h' (hs'.trans (hblock vs)) ?_ ?_
        · rw [hwa', hwa, List.length_cons, Nat.succ_mul]
          omega
        · rcases hroom' with rfl | hroom'
          · rcases hroom with hnil | hroom
            · cases hnil
            · exact .inr hroom
          · exact .inr hroom'
      | consolidated h' hc => exact .consolidated h' (hc.mono a₂ a₁)
      | broken h' hb => exact .broken h' (hb.mono a₂)
      | failed h' k hk hs' hwa' hcut =>
        refine .failed h' (k + 1) (by simp; omega) (hs'.trans (hblock _)) ?_
          (hcut.mono a₂ (List.prefix_refl _))
        rw [hwa', hwa, Nat.succ_mul]
        omega

end Append
end WearLeveling
end VialQmk
