import VialQmk.WearLeveling.Durable

/-!
# WearLeveling.Causal

The order of cause and effect at the store. A call learns of the store through the results of its
operations only, and changes it through its operations only, so that two stores that behave alike for
the first `n` operations see the same first `n` operations (`Causal`). That makes a power loss after
`n` operations the same as a store on which every later operation fails (`crash_eq_cut`).
-/

namespace VialQmk
namespace WearLeveling

open Lib

def StoreOp.ok : StoreOp → Bool
  | .unlock ok | .erase ok | .write _ _ ok | .lock ok => ok

def StoreOp.apply (m : Mem UInt8) : StoreOp → Mem UInt8
  | .erase true => fun _ => 0
  | .write address value true => m.writeBlock address value
  | _ => m

def applyOps (m : Mem UInt8) (ops : List StoreOp) : Mem UInt8 := ops.foldl StoreOp.apply m

theorem StoreOp.apply_of_not_ok {op : StoreOp} (h : op.ok = false) (m : Mem UInt8) :
    op.apply m = m := by
  cases op <;> simp only [StoreOp.ok] at h <;> subst h <;> rfl

theorem applyOps_append (m : Mem UInt8) (ops ops' : List StoreOp) :
    applyOps m (ops ++ ops') = applyOps (applyOps m ops) ops' := List.foldl_append

theorem applyOps_of_not_ok {ops : List StoreOp} (h : ∀ op ∈ ops, op.ok = false) :
    ∀ m : Mem UInt8, applyOps m ops = m := by
  induction ops with
  | nil => exact fun _ => rfl
  | cons op ops ih =>
    intro m
    obtain ⟨hop, hops⟩ := List.forall_mem_cons.mp h
    change applyOps (op.apply m) ops = m
    rw [op.apply_of_not_ok hop, ih hops]

/-- From `s` to `s'` the store went through the recorded operations, with the results of `drv`. -/
structure Runs (drv : Driver) (s s' : State) : Prop where
  ops : s.ops <+: s'.ops
  store : s'.store = applyOps s.store (newOps s s')
  result : ∀ (i : Nat) (h : i < s'.ops.length), s.ops.length ≤ i → s'.ops[i].ok = drv.ok i

namespace Runs

variable {drv : Driver} {s s' s'' : State}

theorem of_same (hstore : s'.store = s.store) (hops : s'.ops = s.ops) : Runs drv s s' where
  ops := hops ▸ List.prefix_refl _
  store := by rw [newOps, hops, List.drop_length, hstore]; rfl
  result i h hle := by rw [hops] at h; omega

theorem trans (h : Runs drv s s') (h' : Runs drv s' s'') : Runs drv s s'' where
  ops := h.ops.trans h'.ops
  store := by rw [h'.store, h.store, newOps_trans h.ops h'.ops, applyOps_append]
  result i hi hle := by
    by_cases hlt : i < s'.ops.length
    · rw [← h.result i hlt hle]
      exact congrArg StoreOp.ok (h'.ops.getElem hlt).symm
    · exact h'.result i hi (Nat.le_of_not_lt hlt)

end Runs

/-- A computation from `s` that depends on the store through the results of its operations only. -/
structure Causal {α : Type} (s : State) (f : Driver → α × State) : Prop where
  runs : ∀ drv, Runs drv s (f drv).2
  done : ∀ {n drv ok}, (∀ i, i < n → ok i = drv.ok i) → (f drv).2.ops.length ≤ n →
    f { drv with ok := ok } = f drv
  cut : ∀ {n drv ok}, (∀ i, i < n → ok i = drv.ok i) → n ≤ (f drv).2.ops.length →
    n ≤ (f { drv with ok := ok }).2.ops.length ∧
      (f { drv with ok := ok }).2.ops.take n = (f drv).2.ops.take n

theorem take_same {α : Type} {l l' : List α} (h : l <+: l') {n : Nat} (hn : n ≤ l.length) :
    l'.take n = l.take n := by
  obtain ⟨t, rfl⟩ := h
  exact List.take_append_of_le_length hn

namespace Causal

variable {α β : Type} {s s' : State} {f : Driver → α × State}

theorem pure (hok : ∀ drv ok, f { drv with ok := ok } = f drv)
    (hstore : ∀ drv, (f drv).2.store = s.store) (hops : ∀ drv, (f drv).2.ops = s.ops) :
    Causal s f where
  runs drv := .of_same (hstore drv) (hops drv)
  done _ _ := hok _ _
  cut _ h := by rw [hok]; exact ⟨h, rfl⟩

theorem const {r : α × State} (hstore : r.2.store = s.store) (hops : r.2.ops = s.ops) :
    Causal s fun _ => r :=
  pure (fun _ _ => rfl) (fun _ => hstore) fun _ => hops

theorem congr (s' : State) (hstore : s'.store = s.store) (hops : s'.ops = s.ops)
    (h : Causal s' f) : Causal s f where
  runs drv := (Runs.of_same hstore hops).trans (h.runs drv)
  done := h.done
  cut := h.cut

theorem single {f : Driver → Bool × State} (op : Bool → StoreOp) (hop : ∀ ok, (op ok).ok = ok)
    (hf : ∀ drv, f drv = (drv.ok s.ops.length,
      { s with
        store := (op (drv.ok s.ops.length)).apply s.store
        ops := s.ops ++ [op (drv.ok s.ops.length)] })) : Causal s f where
  runs drv := by
    rw [hf]
    refine ⟨List.prefix_append _ _, by simp [newOps, applyOps], fun i h hle => ?_⟩
    have hi : i = s.ops.length := by
      simp only [List.length_append, List.length_singleton] at h
      omega
    subst hi
    simp [hop]
  done h hle := by
    simp only [hf, List.length_append, List.length_singleton] at hle ⊢
    rw [h _ (by omega)]
  cut {n drv ok} h hle := by
    simp only [hf, List.length_append, List.length_singleton] at hle ⊢
    refine ⟨hle, ?_⟩
    by_cases hn : n ≤ s.ops.length
    · rw [List.take_append_of_le_length hn, List.take_append_of_le_length hn]
    · rw [h _ (by omega)]

theorem bind {g : α × State → Driver → β × State} (hf : Causal s f)
    (hg : ∀ r : α × State, Causal r.2 (g r)) : Causal s fun drv => g (f drv) drv where
  runs drv := (hf.runs drv).trans ((hg _).runs drv)
  done {n drv ok} h hle := by
    have hx := Nat.le_trans ((hg (f drv)).runs drv).ops.length_le hle
    rw [hf.done h hx]
    exact (hg (f drv)).done h hle
  cut {n drv ok} h hle := by
    by_cases hx : (f drv).2.ops.length ≤ n
    · rw [hf.done h hx]
      exact (hg (f drv)).cut h hle
    · obtain ⟨h₁, h₂⟩ := hf.cut h (Nat.le_of_not_le hx)
      have hpre := ((hg (f drv)).runs drv).ops
      have hpre' := ((hg (f { drv with ok := ok })).runs { drv with ok := ok }).ops
      refine ⟨Nat.le_trans h₁ hpre'.length_le, ?_⟩
      rw [take_same hpre' h₁, h₂, take_same hpre (Nat.le_of_not_le hx)]

theorem cut_store (h : Causal s f) (drv : Driver) (hdrv : ∀ i, drv.ok i = true) (k : Nat) :
    applyOps s.store ((newOps s (f drv).2).take k) =
      (f { drv with ok := fun i => decide (i < s.ops.length + k) }).2.store := by
  have hagree : ∀ i, i < s.ops.length + k → decide (i < s.ops.length + k) = drv.ok i :=
    fun i hi => by rw [hdrv, decide_eq_true hi]
  have hruns := h.runs drv
  have hruns' := h.runs { drv with ok := fun i => decide (i < s.ops.length + k) }
  by_cases hle : (f drv).2.ops.length ≤ s.ops.length + k
  · rw [h.done hagree hle, hruns.store, List.take_of_length_le]
    rw [newOps, List.length_drop]
    omega
  · obtain ⟨h₁, h₂⟩ := h.cut hagree (Nat.le_of_not_le hle)
    have hcommon : (newOps s (f drv).2).take k =
        (newOps s (f { drv with ok := fun i => decide (i < s.ops.length + k) }).2).take k := by
      simp only [newOps, List.take_drop, h₂]
    rw [hcommon, hruns'.store]
    conv_rhs => rw [← List.take_append_drop k (newOps s _), applyOps_append]
    refine (applyOps_of_not_ok (fun op hop => ?_) _).symm
    rw [newOps, List.drop_drop] at hop
    obtain ⟨i, hi, rfl⟩ := List.getElem_of_mem hop
    rw [List.getElem_drop, hruns'.result _ _ (by omega)]
    exact decide_eq_false (by omega)

/-- The operations that succeed before the store stops are operations of the whole computation. -/
theorem mem_of_cut (h : Causal s f) (drv : Driver) (hdrv : ∀ i, drv.ok i = true) (k : Nat)
    {op : StoreOp} (hok : op.ok = true)
    (hop : op ∈ newOps s (f { drv with ok := fun i => decide (i < s.ops.length + k) }).2) :
    op ∈ newOps s (f drv).2 := by
  have hagree : ∀ i, i < s.ops.length + k → decide (i < s.ops.length + k) = drv.ok i :=
    fun i hi => by rw [hdrv, decide_eq_true hi]
  have hruns' := h.runs { drv with ok := fun i => decide (i < s.ops.length + k) }
  by_cases hle : (f drv).2.ops.length ≤ s.ops.length + k
  · rwa [h.done hagree hle] at hop
  · obtain ⟨h₁, h₂⟩ := h.cut hagree (Nat.le_of_not_le hle)
    obtain ⟨i, hi, rfl⟩ := List.getElem_of_mem hop
    simp only [newOps, List.getElem_drop] at hok ⊢
    rw [newOps, List.length_drop] at hi
    have hlt : s.ops.length + i < s.ops.length + k := by
      rw [hruns'.result _ (by omega) (by omega)] at hok
      exact of_decide_eq_true hok
    have hsame := congrArg (·[s.ops.length + i]?) h₂
    simp only [List.getElem?_take_of_lt hlt] at hsame
    rw [List.getElem?_eq_getElem (by omega), List.getElem?_eq_getElem (by omega)] at hsame
    rw [Option.some.inj hsame]
    refine List.mem_of_getElem? (i := i) ?_
    rw [List.getElem?_drop]
    exact List.getElem?_eq_getElem _

end Causal

section Functions

variable (cfg : Config) (s : State)

theorem backingStoreUnlock_causal : Causal s fun drv => backingStoreUnlock drv s :=
  .single .unlock (fun _ => rfl) fun _ => rfl

theorem backingStoreLock_causal : Causal s fun drv => backingStoreLock drv s :=
  .single .lock (fun _ => rfl) fun _ => rfl

theorem backingStoreErase_causal : Causal s fun drv => backingStoreErase drv s :=
  .single .erase (fun _ => rfl) fun drv => by
    unfold backingStoreErase
    cases drv.ok s.ops.length <;> rfl

theorem backingStoreWrite_causal (address : Nat) (value : List UInt8) :
    Causal s fun drv => backingStoreWrite drv s address value :=
  .single (.write address value) (fun _ => rfl) fun drv => by
    unfold backingStoreWrite
    cases drv.ok s.ops.length <;> rfl

theorem wearLevelingUnlock_causal : Causal s fun drv => wearLevelingUnlock drv s := by
  unfold wearLevelingUnlock
  by_cases h : s.unlocked = true
  · simp only [if_pos h]
    exact .const rfl rfl
  · simp only [if_neg h]
    refine (backingStoreUnlock_causal s).bind (g := fun r _ =>
      if r.1 then (LockStatus.success, { r.2 with unlocked := true })
      else (LockStatus.failure, r.2)) fun r => ?_
    cases r.1 <;> exact .const rfl rfl

theorem wearLevelingLock_causal : Causal s fun drv => wearLevelingLock drv s := by
  unfold wearLevelingLock
  by_cases h : s.unlocked = true
  · simp only [if_pos h]
    refine (backingStoreLock_causal s).bind (g := fun r _ =>
      if r.1 then (LockStatus.success, { r.2 with unlocked := false })
      else (LockStatus.failure, r.2)) fun r => ?_
    cases r.1 <;> exact .const rfl rfl
  · simp only [if_neg h]
    exact .const rfl rfl

theorem backingStoreWriteBulk_causal (vs : List (List UInt8)) :
    ∀ (s : State) (address : Nat), Causal s fun drv => backingStoreWriteBulk cfg drv s address vs := by
  induction vs with
  | nil => exact fun _ _ => .const rfl rfl
  | cons v vs ih =>
    intro s address
    refine (backingStoreWrite_causal s address v).bind (g := fun r drv =>
      if r.1 then backingStoreWriteBulk cfg drv r.2 (address + cfg.writeSize) vs
      else (false, r.2)) fun r => ?_
    cases r.1 with
    | true => exact ih _ _
    | false => exact .const rfl rfl

theorem writeConsolidatedData_causal : Causal s fun drv => writeConsolidatedData cfg drv s := by
  refine (backingStoreWriteBulk_causal cfg _ s 0).bind (g := fun bulk drv =>
    if bulk.1 then
      let sum := backingStoreWriteBulk cfg drv bulk.2 cfg.logicalSize
        (wordsOf cfg (checksumBytes cfg s.cache))
      (if sum.1 then Status.consolidated else .failed, sum.2)
    else (Status.failed, bulk.2)) fun bulk => ?_
  cases bulk.1 with
  | true =>
    exact (backingStoreWriteBulk_causal cfg _ bulk.2 _).bind (g := fun sum _ =>
      (if sum.1 then Status.consolidated else .failed, sum.2)) fun sum =>
        Causal.const (s := sum.2)
          (r := (if sum.1 then Status.consolidated else .failed, sum.2)) rfl rfl
  | false => exact .const rfl rfl

theorem wearLevelingWriteConsolidated_causal :
    Causal s fun drv => wearLevelingWriteConsolidated cfg drv s := by
  refine (wearLevelingUnlock_causal s).bind (g := fun lockStatus drv =>
    let r := writeConsolidatedData cfg drv lockStatus.2
    (r.1, if lockStatus.1 = .success then (wearLevelingLock drv r.2).2 else r.2)) fun lockStatus => ?_
  refine (writeConsolidatedData_causal cfg lockStatus.2).bind (g := fun r drv =>
    (r.1, if lockStatus.1 = .success then (wearLevelingLock drv r.2).2 else r.2)) fun r => ?_
  by_cases h : lockStatus.1 = .success
  · simp only [if_pos h]
    exact (wearLevelingLock_causal r.2).bind (g := fun lock _ => (r.1, lock.2)) fun _ => .const rfl rfl
  · simp only [if_neg h]
    exact .const rfl rfl

theorem wearLevelingConsolidateForce_causal :
    Causal s fun drv => wearLevelingConsolidateForce cfg drv s := by
  refine (backingStoreErase_causal s).bind (g := fun erase drv =>
    if erase.1 then
      let r := wearLevelingWriteConsolidated cfg drv erase.2
      (r.1, { r.2 with writeAddress := cfg.logBase })
    else (Status.failed, erase.2)) fun erase => ?_
  cases erase.1 with
  | true =>
    exact (wearLevelingWriteConsolidated_causal cfg erase.2).bind (g := fun r _ =>
      (r.1, { r.2 with writeAddress := cfg.logBase })) fun _ => .const rfl rfl
  | false => exact .const rfl rfl

theorem wearLevelingConsolidateIfNeeded_causal :
    Causal s fun drv => wearLevelingConsolidateIfNeeded cfg drv s := by
  unfold wearLevelingConsolidateIfNeeded
  by_cases h : s.writeAddress ≥ cfg.backingSize
  · simp only [if_pos h]
    exact wearLevelingConsolidateForce_causal cfg s
  · simp only [if_neg h]
    exact .const rfl rfl

theorem wearLevelingAppendRaw_causal (value : List UInt8) :
    Causal s fun drv => wearLevelingAppendRaw cfg drv s value := by
  refine (backingStoreWrite_causal s s.writeAddress value).bind (g := fun r drv =>
    if r.1 then
      wearLevelingConsolidateIfNeeded cfg drv
        { r.2 with writeAddress := s.writeAddress + cfg.writeSize }
    else (Status.failed, r.2)) fun r => ?_
  cases r.1 with
  | true =>
    exact Causal.congr { r.2 with writeAddress := s.writeAddress + cfg.writeSize } rfl rfl
      (wearLevelingConsolidateIfNeeded_causal cfg _)
  | false => exact .const rfl rfl

theorem appendWords_causal (vs : List (List UInt8)) :
    ∀ s : State, Causal s fun drv => appendWords cfg drv s vs := by
  induction vs with
  | nil => exact fun _ => .const rfl rfl
  | cons v vs ih =>
    intro s
    refine (wearLevelingAppendRaw_causal cfg s v).bind (g := fun r drv =>
      if r.1 = .success then appendWords cfg drv r.2 vs else r) fun r => ?_
    by_cases h : r.1 = .success
    · simp only [if_pos h]
      exact ih _
    · simp only [if_neg h]
      exact .const rfl rfl

theorem wearLevelingWriteRaw_causal (fuel : Nat) :
    ∀ (s : State) (address : Nat) (p : List UInt8),
      Causal s fun drv => wearLevelingWriteRaw cfg drv fuel s address p := by
  induction fuel with
  | zero => exact fun _ _ _ => .const rfl rfl
  | succ fuel ih =>
    intro s address p
    simp only [wearLevelingWriteRaw]
    by_cases hp : p.length > 0
    · simp only [if_pos hp]
      refine (appendWords_causal cfg _ s).bind (g := fun r drv =>
        if r.1 = .success then
          wearLevelingWriteRaw cfg drv fuel r.2 (address + (nextEntry cfg address p).consumed)
            (p.drop (nextEntry cfg address p).consumed)
        else r) fun r => ?_
      by_cases h : r.1 = .success
      · simp only [if_pos h]
        exact ih _ _ _
      · simp only [if_neg h]
        exact .const rfl rfl
    · simp only [if_neg hp]
      exact .const rfl rfl

theorem writeAndConsolidate_causal (address : Nat) (value : List UInt8) :
    Causal s fun drv => writeAndConsolidate cfg drv s address value := by
  refine (wearLevelingWriteRaw_causal cfg value.length s address value).bind (g := fun r drv =>
    if r.1 = .success then wearLevelingConsolidateIfNeeded cfg drv r.2 else r) fun r => ?_
  by_cases h : r.1 = .success
  · simp only [if_pos h]
    exact wearLevelingConsolidateIfNeeded_causal cfg _
  · simp only [if_neg h]
    exact .const rfl rfl

theorem lock_after_causal {α : Type} (u : LockStatus) (r : α × State) (h : LockStatus → α) :
    Causal r.2 fun drv =>
      if u = .success then (h (wearLevelingLock drv r.2).1, (wearLevelingLock drv r.2).2) else r := by
  by_cases hu : u = .success
  · simp only [if_pos hu]
    exact (wearLevelingLock_causal r.2).bind (g := fun lock _ => (h lock.1, lock.2))
      fun _ => .const rfl rfl
  · simp only [if_neg hu]
    exact .const rfl rfl

theorem wearLevelingWrite_causal (address : Nat) (value : List UInt8) :
    Causal s fun drv => wearLevelingWrite cfg drv s address value := by
  simp only [wearLevelingWrite]
  by_cases hfit : address + value.length > cfg.logicalSize
  · simp only [if_pos hfit]
    exact .const rfl rfl
  by_cases hskip : s.cache.readBlock address value.length = value
  · simp only [if_neg hfit, if_pos hskip]
    exact .const rfl rfl
  simp only [if_neg hfit, if_neg hskip]
  refine Causal.congr { s with cache := s.cache.writeBlock address value } rfl rfl ?_
  refine (wearLevelingUnlock_causal { s with cache := s.cache.writeBlock address value }).bind
    (g := fun lockStatus drv =>
      if lockStatus.1 = .failure then (Status.failed, (wearLevelingLock drv lockStatus.2).2)
      else
        let r := writeAndConsolidate cfg drv lockStatus.2 address value
        if lockStatus.1 = .success then
          let lock := wearLevelingLock drv r.2
          (if lock.1 = .failure then .failed else r.1, lock.2)
        else r) fun lockStatus => ?_
  by_cases hlock : lockStatus.1 = .failure
  · simp only [if_pos hlock]
    exact (wearLevelingLock_causal lockStatus.2).bind (g := fun lock _ => (Status.failed, lock.2))
      fun _ => .const rfl rfl
  · simp only [if_neg hlock]
    exact (writeAndConsolidate_causal cfg lockStatus.2 address value).bind (g := fun r drv =>
      if lockStatus.1 = .success then
        (if (wearLevelingLock drv r.2).1 = .failure then Status.failed else r.1, (wearLevelingLock drv r.2).2)
      else r) fun r => lock_after_causal _ r fun lock => if lock = .failure then .failed else r.1

theorem wearLevelingErase_causal : Causal s fun drv => wearLevelingErase cfg drv s := by
  refine (wearLevelingUnlock_causal s).bind (g := fun lockStatus drv =>
    if lockStatus.1 = .failure then (Status.failed, (wearLevelingLock drv lockStatus.2).2)
    else
      let erase := backingStoreErase drv lockStatus.2
      let s := wearLevelingClearCache cfg erase.2
      if lockStatus.1 = .success then
        let lock := wearLevelingLock drv s
        (if erase.1 = true ∧ lock.1 ≠ .failure then Status.success else .failed, lock.2)
      else (if erase.1 then Status.success else .failed, s)) fun lockStatus => ?_
  by_cases hlock : lockStatus.1 = .failure
  · simp only [if_pos hlock]
    exact (wearLevelingLock_causal lockStatus.2).bind (g := fun lock _ => (Status.failed, lock.2))
      fun _ => .const rfl rfl
  · simp only [if_neg hlock]
    refine (backingStoreErase_causal lockStatus.2).bind (g := fun erase drv =>
      let s := wearLevelingClearCache cfg erase.2
      if lockStatus.1 = .success then
        (if erase.1 = true ∧ (wearLevelingLock drv s).1 ≠ .failure then Status.success else .failed,
          (wearLevelingLock drv s).2)
      else (if erase.1 then Status.success else .failed, s)) fun erase => ?_
    exact Causal.congr (wearLevelingClearCache cfg erase.2) rfl rfl
      (lock_after_causal lockStatus.1
        (if erase.1 then Status.success else .failed, wearLevelingClearCache cfg erase.2)
        fun lock => if erase.1 = true ∧ lock ≠ .failure then Status.success else .failed)

theorem playLoop_ok (drv : Driver) (ok : Nat → Bool) (m : Mem UInt8) (fuel : Nat) :
    ∀ (a : Nat) (c : Cache),
      playLoop cfg { drv with ok := ok } m fuel a c = playLoop cfg drv m fuel a c := by
  induction fuel with
  | zero => exact fun _ _ => rfl
  | succ fuel ih =>
    intro a c
    have hstep : playStep cfg { drv with ok := ok } m a c = playStep cfg drv m a c := rfl
    simp only [playLoop, hstep, ih]

theorem wearLevelingPlaybackLog_causal : Causal s fun drv => wearLevelingPlaybackLog cfg drv s := by
  refine (Causal.pure (s := s) (f := fun drv =>
      ((playLoop cfg drv s.store cfg.backingSize cfg.logBase s.cache).1,
        { s with
          cache := (playLoop cfg drv s.store cfg.backingSize cfg.logBase s.cache).2.2
          writeAddress := (playLoop cfg drv s.store cfg.backingSize cfg.logBase s.cache).2.1 }))
      (fun drv ok => by simp only [playLoop_ok]) (fun _ => rfl) fun _ => rfl).bind
    (g := fun r drv =>
      if r.1 = .failed then wearLevelingConsolidateForce cfg drv r.2
      else wearLevelingConsolidateIfNeeded cfg drv r.2) fun r => ?_
  by_cases h : r.1 = .failed
  · simp only [if_pos h]
    exact wearLevelingConsolidateForce_causal cfg _
  · simp only [if_neg h]
    exact wearLevelingConsolidateIfNeeded_causal cfg _

theorem wearLevelingReadConsolidated_causal :
    Causal s fun drv => wearLevelingReadConsolidated cfg drv s := by
  refine .pure (fun _ _ => rfl) (fun drv => ?_) fun drv => ?_
  all_goals
    simp only [wearLevelingReadConsolidated]
    split
    · split <;> rfl
    · rfl

theorem clear_on_failure_causal {f : Driver → Status × State} (h : Causal s f) :
    Causal s fun drv =>
      if (f drv).1 = .failed then ((f drv).1, wearLevelingClearCache cfg (f drv).2) else f drv := by
  refine h.bind (g := fun r _ =>
    if r.1 = .failed then (r.1, wearLevelingClearCache cfg r.2) else r) fun r => ?_
  by_cases hr : r.1 = .failed
  · simp only [if_pos hr]
    exact .const rfl rfl
  · simp only [if_neg hr]
    exact .const rfl rfl

theorem wearLevelingInit_causal : Causal s fun drv => wearLevelingInit cfg drv s := by
  refine (Causal.pure (s := s) (f := fun drv => (drv.initOk, wearLevelingClearCache cfg s))
    (fun _ _ => rfl) (fun _ => rfl) fun _ => rfl).bind (g := fun start drv =>
      if start.1 then
        let r := wearLevelingReadConsolidated cfg drv start.2
        if r.1 = .failed then (r.1, wearLevelingClearCache cfg r.2)
        else
          let r := wearLevelingPlaybackLog cfg drv r.2
          if r.1 = .failed then (r.1, wearLevelingClearCache cfg r.2) else r
      else (Status.failed, wearLevelingClearCache cfg start.2)) fun start => ?_
  cases start.1 with
  | false => exact .const rfl rfl
  | true =>
    refine (wearLevelingReadConsolidated_causal cfg start.2).bind (g := fun r drv =>
      if r.1 = .failed then (r.1, wearLevelingClearCache cfg r.2)
      else
        let r := wearLevelingPlaybackLog cfg drv r.2
        if r.1 = .failed then (r.1, wearLevelingClearCache cfg r.2) else r) fun r => ?_
    by_cases hr : r.1 = .failed
    · simp only [if_pos hr]
      exact .const rfl rfl
    · simp only [if_neg hr]
      exact clear_on_failure_causal cfg r.2 (wearLevelingPlaybackLog_causal cfg r.2)

end Functions

theorem exec_causal (cfg : Config) (s : State) (call : Call) :
    Causal s fun drv => call.exec cfg drv s := by
  cases call with
  | init => exact wearLevelingInit_causal cfg s
  | erase => exact wearLevelingErase_causal cfg s
  | write address value => exact wearLevelingWrite_causal cfg s address value

end WearLeveling
end VialQmk
