import VialQmk.WearLeveling.Durable

/-!
# WearLeveling.Discipline

The rules of flash memory for the operations on the store: a word is written once between two erases,
at its own place inside the store, and nothing is written or erased while the store is locked.
`Flash` watches the operations as a test double of the store does.

* `write_obeys`, `init_obeys`, `erase_obeys`: what a call leaves when it keeps the rules.
* `LogStatus.after`: what becomes of the log in a call, by the operations that fail in it.
* `flash_discipline`: a run keeps the rules as long as no write gets to the store before the log is
  read or the store erased, and no initialisation of a locked store has to consolidate.
-/

namespace VialQmk
namespace WearLeveling

open Lib

/-- The words written since the last erase, and the lock. -/
structure Flash where
  written : List Nat
  unlocked : Bool
  deriving DecidableEq, Repr

namespace Flash

def apply (f : Flash) : StoreOp → Flash
  | .unlock true => { f with unlocked := true }
  | .lock true => { f with unlocked := false }
  | .erase true => { f with written := [] }
  | .write address _ true => { f with written := address :: f.written }
  | .unlock false | .lock false | .erase false | .write _ _ false => f

def applyAll (f : Flash) (ops : List StoreOp) : Flash := ops.foldl Flash.apply f

def Legal (cfg : Config) (f : Flash) : StoreOp → Prop
  | .write address _ _ => f.unlocked = true ∧ address % cfg.writeSize = 0 ∧
      address + cfg.writeSize ≤ cfg.backingSize ∧ address ∉ f.written
  | .erase _ => f.unlocked = true
  | .unlock _ | .lock _ => True

instance (cfg : Config) (f : Flash) (op : StoreOp) : Decidable (f.Legal cfg op) := by
  cases op <;> unfold Legal <;> infer_instance

end Flash

def Disciplined (cfg : Config) : Flash → List StoreOp → Prop
  | _, [] => True
  | f, op :: ops => f.Legal cfg op ∧ Disciplined cfg (f.apply op) ops

instance decidableDisciplined (cfg : Config) : ∀ (f : Flash) (ops : List StoreOp),
    Decidable (Disciplined cfg f ops)
  | _, [] => isTrue trivial
  | f, op :: ops =>
    have := decidableDisciplined cfg (f.apply op) ops
    inferInstanceAs (Decidable (_ ∧ _))

theorem disciplined_snoc (cfg : Config) (ops : List StoreOp) (op : StoreOp) :
    ∀ f : Flash, Disciplined cfg f (ops ++ [op]) ↔
      Disciplined cfg f ops ∧ (f.applyAll ops).Legal cfg op := by
  induction ops with
  | nil => exact fun f => by simp [Disciplined, Flash.applyAll]
  | cons o ops ih =>
    intro f
    simp only [List.cons_append, Disciplined, ih, and_assoc]
    rfl

section Obeys

variable {cfg : Config} {f : Flash}

/-- The operations so far kept the rules, and the driver knows whether the store is locked. -/
structure Obeys (cfg : Config) (f : Flash) (s : State) : Prop where
  disciplined : Disciplined cfg f s.ops
  unlocked : (f.applyAll s.ops).unlocked = s.unlocked

def WrittenBelow (f : Flash) (s : State) (w : Nat) : Prop :=
  ∀ address ∈ (f.applyAll s.ops).written, address < w

theorem applyAll_snoc (f : Flash) (ops : List StoreOp) (op : StoreOp) :
    f.applyAll (ops ++ [op]) = (f.applyAll ops).apply op := by
  simp [Flash.applyAll]

variable (drv : Driver) {s : State} {m : Mem UInt8} {s' : State}

theorem WrittenBelow.mono {w w' : Nat} (h : WrittenBelow f s w) (hle : w ≤ w') : WrittenBelow f s w' :=
  fun address ha => Nat.lt_of_lt_of_le (h address ha) hle

theorem Obeys.congr (h : Obeys cfg f s) (hops : s'.ops = s.ops) (hunlocked : s'.unlocked = s.unlocked) :
    Obeys cfg f s' :=
  ⟨hops ▸ h.disciplined, by rw [hops, hunlocked, h.unlocked]⟩

section Operations

variable (drv : Driver) {s : State} (h : Obeys cfg f s)

include h

theorem unlock_obeys :
    Obeys cfg f (wearLevelingUnlock drv s).2 ∧
      (f.applyAll (wearLevelingUnlock drv s).2.ops).written = (f.applyAll s.ops).written ∧
      ((wearLevelingUnlock drv s).1 ≠ .failure → (wearLevelingUnlock drv s).2.unlocked = true) := by
  unfold wearLevelingUnlock backingStoreUnlock
  by_cases hu : s.unlocked = true
  · simp only [if_pos hu]
    exact ⟨h, trivial, fun _ => hu⟩
  · simp only [if_neg hu]
    cases drv.ok s.ops.length with
    | true =>
      refine ⟨⟨(disciplined_snoc cfg _ _ f).mpr ⟨h.disciplined, trivial⟩, ?_⟩, ?_, fun _ => rfl⟩
      · simp [applyAll_snoc, Flash.apply]
      · simp [applyAll_snoc, Flash.apply]
    | false =>
      refine ⟨⟨(disciplined_snoc cfg _ _ f).mpr ⟨h.disciplined, trivial⟩, ?_⟩, ?_, fun hne => ?_⟩
      · simpa [applyAll_snoc, Flash.apply] using h.unlocked
      · simp [applyAll_snoc, Flash.apply]
      · exact absurd rfl hne

omit h in
theorem unlock_opens (s : State) : (wearLevelingUnlock drv s).1 ≠ .failure ↔
    s.unlocked = true ∨ drv.ok s.ops.length = true := by
  unfold wearLevelingUnlock backingStoreUnlock
  by_cases hu : s.unlocked = true
  · simp [hu]
  · cases hok : drv.ok s.ops.length <;> simp [hu]

theorem lock_obeys :
    Obeys cfg f (wearLevelingLock drv s).2 ∧
      (f.applyAll (wearLevelingLock drv s).2.ops).written = (f.applyAll s.ops).written := by
  unfold wearLevelingLock backingStoreLock
  by_cases hu : s.unlocked = true
  · simp only [if_pos hu]
    cases drv.ok s.ops.length with
    | true =>
      refine ⟨⟨(disciplined_snoc cfg _ _ f).mpr ⟨h.disciplined, trivial⟩, ?_⟩, ?_⟩
      · simp [applyAll_snoc, Flash.apply]
      · simp [applyAll_snoc, Flash.apply]
    | false =>
      refine ⟨⟨(disciplined_snoc cfg _ _ f).mpr ⟨h.disciplined, trivial⟩, ?_⟩, ?_⟩
      · simpa [applyAll_snoc, Flash.apply] using h.unlocked
      · simp [applyAll_snoc, Flash.apply]
  · simp only [if_neg hu]
    exact ⟨h, trivial⟩

theorem backingStoreErase_obeys (hu : s.unlocked = true) :
    Obeys cfg f (backingStoreErase drv s).2 ∧
      (f.applyAll (backingStoreErase drv s).2.ops).written =
        if (backingStoreErase drv s).1 then [] else (f.applyAll s.ops).written := by
  have hlegal : (f.applyAll s.ops).unlocked = true := h.unlocked.trans hu
  unfold backingStoreErase
  refine ⟨⟨(disciplined_snoc cfg _ _ f).mpr ⟨h.disciplined, hlegal⟩, ?_⟩, ?_⟩
  · cases drv.ok s.ops.length <;> simpa [applyAll_snoc, Flash.apply] using h.unlocked
  · cases drv.ok s.ops.length <;> simp [applyAll_snoc, Flash.apply]

theorem backingStoreWrite_obeys (hu : s.unlocked = true) {address : Nat} (value : List UInt8)
    (haligned : address % cfg.writeSize = 0) (hfit : address + cfg.writeSize ≤ cfg.backingSize)
    (hbelow : WrittenBelow f s address) :
    Obeys cfg f (backingStoreWrite drv s address value).2 ∧
      WrittenBelow f (backingStoreWrite drv s address value).2 (address + cfg.writeSize) := by
  have hlegal : (f.applyAll s.ops).Legal cfg (.write address value (drv.ok s.ops.length)) :=
    ⟨h.unlocked.trans hu, haligned, hfit, fun ha => Nat.lt_irrefl _ (hbelow address ha)⟩
  have hpos := writeSize_pos cfg
  unfold backingStoreWrite
  refine ⟨⟨(disciplined_snoc cfg _ _ f).mpr ⟨h.disciplined, hlegal⟩, ?_⟩, fun a ha => ?_⟩
  · cases drv.ok s.ops.length <;> simpa [applyAll_snoc, Flash.apply] using h.unlocked
  · simp only [applyAll_snoc] at ha
    cases hok : drv.ok s.ops.length with
    | true =>
      rw [hok] at ha
      rcases List.mem_cons.mp ha with rfl | ha
      · omega
      · have := hbelow a ha
        omega
    | false =>
      rw [hok] at ha
      have := hbelow a ha
      omega

end Operations
/-! ## Consolidation -/

theorem writeBulk_obeys (drv : Driver) (vs : List (List UInt8)) :
    ∀ {s : State} {address : Nat}, Obeys cfg f s → s.unlocked = true →
      address % cfg.writeSize = 0 → address + vs.length * cfg.writeSize ≤ cfg.backingSize →
      WrittenBelow f s address →
      let r := backingStoreWriteBulk cfg drv s address vs
      Obeys cfg f r.2 ∧ r.2.unlocked = true ∧
        WrittenBelow f r.2 (address + vs.length * cfg.writeSize) := by
  induction vs with
  | nil =>
    intro s address h hu _ _ hbelow
    exact ⟨h, hu, by simpa [backingStoreWriteBulk] using hbelow⟩
  | cons v vs ih =>
    intro s address h hu haligned hfit hbelow
    rw [List.length_cons, Nat.succ_mul] at hfit
    obtain ⟨h', hbelow'⟩ := backingStoreWrite_obeys drv h hu v haligned (by omega) hbelow
    have hsum : address + (vs.length + 1) * cfg.writeSize =
        address + cfg.writeSize + vs.length * cfg.writeSize := by
      rw [Nat.succ_mul]
      omega
    simp only [backingStoreWriteBulk, List.length_cons, hsum]
    split
    · exact ih h' hu (by rw [Nat.add_mod_right]; exact haligned) (by omega) hbelow'
    · exact ⟨h', hu, hbelow'.mono (Nat.le_add_right _ _)⟩

theorem writeConsolidated_obeys (hroom : cfg.logBase ≤ cfg.backingSize) (drv : Driver) (h : Obeys cfg f s)
    (hu : s.unlocked = true) (hempty : (f.applyAll s.ops).written = []) :
    let r := wearLevelingWriteConsolidated cfg drv s
    Obeys cfg f r.2 ∧ r.2.unlocked = true ∧ WrittenBelow f r.2 cfg.logBase := by
  have hunlock : wearLevelingUnlock drv s = (.unchanged, s) := by
    rw [wearLevelingUnlock, if_pos hu]
  have hdata : (cacheBytes cfg s.cache).length % cfg.writeSize = 0 := by
    rw [cacheBytes_length]
    exact cfg.logical_mod
  have hsum : (checksumBytes cfg s.cache).length % cfg.writeSize = 0 := eight_mod cfg
  have hcount := wordsOf_count hdata
  have hcount' := wordsOf_count hsum
  rw [cacheBytes_length] at hcount
  rw [checksumBytes_length] at hcount'
  simp only [Config.logBase] at hroom ⊢
  simp only [wearLevelingWriteConsolidated, hunlock, reduceCtorEq, if_false, writeConsolidatedData]
  obtain ⟨b₁, b₂, b₃⟩ := writeBulk_obeys drv (wordsOf cfg (cacheBytes cfg s.cache)) h hu
    (Nat.zero_mod _) (by omega) (fun a ha => by rw [hempty] at ha; cases ha)
  rw [hcount, Nat.zero_add] at b₃
  generalize backingStoreWriteBulk cfg drv s 0 (wordsOf cfg (cacheBytes cfg s.cache)) = bulk
    at b₁ b₂ b₃
  split
  · obtain ⟨c₁, c₂, c₃⟩ := writeBulk_obeys drv (wordsOf cfg (checksumBytes cfg s.cache)) b₁ b₂
      cfg.logical_mod (by omega) b₃
    rw [hcount'] at c₃
    exact ⟨c₁, c₂, c₃⟩
  · exact ⟨b₁, b₂, b₃.mono (Nat.le_add_right _ _)⟩

structure Emptied (cfg : Config) (f : Flash) (s : State) : Prop where
  writeAddress : s.writeAddress = cfg.logBase
  blank : ∀ x, cfg.logBase ≤ x → s.store x = 0
  below : WrittenBelow f s cfg.logBase

theorem Emptied.congr (h : Emptied cfg f s) (hstore : s'.store = s.store) (haddress : s'.writeAddress = cfg.logBase)
    (hwritten : (f.applyAll s'.ops).written = (f.applyAll s.ops).written) : Emptied cfg f s' :=
  ⟨haddress, fun x hx => by rw [hstore, h.blank x hx], fun a ha => h.below a (hwritten ▸ ha)⟩

theorem backingStoreErase_newOps (s : State) :
    newOps s (backingStoreErase drv s).2 = [.erase (drv.ok s.ops.length)] := List.drop_left

/-- A consolidation of an unlocked store keeps the rules. It empties the log, or its erase fails and
the write address stays. -/
theorem consolidateForce_obeys (hroom : cfg.logBase ≤ cfg.backingSize) (drv : Driver) (h : Obeys cfg f s)
    (hu : s.unlocked = true) : let r := wearLevelingConsolidateForce cfg drv s
    Obeys cfg f r.2 ∧ r.2.unlocked = true ∧ r.1 ≠ .success ∧
      ((.erase true ∈ newOps s r.2 ∧ Emptied cfg f r.2) ∨
        (newOps s r.2 = [.erase false] ∧ r.2.writeAddress = s.writeAddress)) := by
  obtain ⟨e₁, e₂⟩ := backingStoreErase_obeys drv h hu
  have hnew := backingStoreErase_newOps drv s
  simp only [wearLevelingConsolidateForce]
  cases hok : drv.ok s.ops.length with
  | true =>
    rw [backingStoreErase_fst, hok, if_pos rfl] at e₂ ⊢
    obtain ⟨w₁, w₂, w₃⟩ := writeConsolidated_obeys hroom drv e₁ hu e₂
    have hstore : (backingStoreErase drv s).2.store = fun _ => 0 := by simp [backingStoreErase, hok]
    obtain ⟨-, hpre, hdata⟩ := writeConsolidated_spec cfg drv hstore
    have hmem : StoreOp.erase true ∈ newOps s (backingStoreErase drv s).2 := by
      rw [hnew, hok]
      exact List.mem_singleton_self _
    refine ⟨w₁.congr rfl rfl, w₂, ?_, .inl ⟨newOps_mono (List.prefix_refl _) hpre hmem, rfl, ?_, w₃⟩⟩
    · rcases hdata with ⟨hst, -⟩ | ⟨hst, -⟩ <;> rw [hst] <;> decide
    · rcases hdata with ⟨-, hst⟩ | ⟨-, hblank⟩
      · exact fun x hx => by rw [hst, consolidatedStore_blank _ hx]
      · exact hblank
  | false =>
    rw [backingStoreErase_fst, hok, if_neg Bool.false_ne_true]
    exact ⟨e₁, hu, Status.noConfusion, .inr ⟨hok ▸ hnew, rfl⟩⟩

/-! ## Appending -/

structure Between (cfg : Config) (f : Flash) (s : State) : Prop where
  obeys : Obeys cfg f s
  aligned : s.writeAddress % cfg.writeSize = 0

/-- The write address lies inside the store and behind every word written since the last erase. -/
def Ready (cfg : Config) (f : Flash) (s : State) : Prop :=
  s.writeAddress < cfg.backingSize ∧ WrittenBelow f s s.writeAddress

def NoErase (s s' : State) : Prop := ∀ ok, .erase ok ∉ newOps s s'

/-- From `s` to `s'` the rules are kept, and an erase empties the log. -/
structure Leaves (cfg : Config) (f : Flash) (s s' : State) : Prop where
  between : Between cfg f s'
  ops : s.ops <+: s'.ops
  emptied : .erase true ∈ newOps s s' → Emptied cfg f s'

/-- How an append ends: ready for the next one, unless it had to erase. -/
structure AppendLeaves (cfg : Config) (f : Flash) (s : State) (r : Status × State) : Prop
    extends Leaves cfg f s r.2 where
  unlocked : r.2.unlocked = true
  ready : NoErase s r.2 → Ready cfg f r.2
  success : r.1 = .success → NoErase s r.2

theorem logBase_aligned (cfg : Config) : cfg.logBase % cfg.writeSize = 0 := by
  rw [Config.logBase, Nat.add_mod, cfg.logical_mod, eight_mod, Nat.zero_mod]

theorem word_fits {address : Nat} (haligned : address % cfg.writeSize = 0)
    (hlt : address < cfg.backingSize) : address + cfg.writeSize ≤ cfg.backingSize := by
  have hbacking : cfg.writeSize ∣ cfg.backingSize :=
    Nat.dvd_trans (Nat.dvd_of_mod_eq_zero cfg.logical_mod) (Nat.dvd_of_mod_eq_zero cfg.backing_mod)
  obtain ⟨k, hk⟩ := hbacking
  obtain ⟨j, rfl⟩ := Nat.dvd_of_mod_eq_zero haligned
  rw [hk] at hlt ⊢
  have hjk : j + 1 ≤ k := Nat.lt_of_mul_lt_mul_left hlt
  exact Nat.mul_le_mul_left cfg.writeSize hjk

theorem noErase_of_same {s' : State} (hops : s'.ops = s.ops) : NoErase s s' := by
  intro ok h
  rw [newOps, hops, List.drop_length] at h
  cases h

theorem AppendLeaves.of_same {status : Status} (h : Between cfg f s) (hu : s.unlocked = true)
    (hready : Ready cfg f s) : AppendLeaves cfg f s (status, s) where
  between := h
  ops := List.prefix_refl _
  emptied hmem := absurd hmem (noErase_of_same rfl true)
  unlocked := hu
  ready _ := hready
  success _ := noErase_of_same rfl

theorem mem_newOps_trans {s'' : State} {op : StoreOp} (h : s.ops <+: s'.ops) (h' : s'.ops <+: s''.ops) :
    op ∈ newOps s s'' ↔ op ∈ newOps s s' ∨ op ∈ newOps s' s'' := by
  rw [newOps_trans h h', List.mem_append]

theorem AppendLeaves.trans {r r' : Status × State} (h : AppendLeaves cfg f s r) (hs : r.1 = .success)
    (h' : AppendLeaves cfg f r.2 r') : AppendLeaves cfg f s r' := by
  have hmem : ∀ ok, .erase ok ∈ newOps s r'.2 → .erase ok ∈ newOps r.2 r'.2 := fun ok hop =>
    ((mem_newOps_trans h.ops h'.ops).mp hop).resolve_left (h.success hs ok)
  exact {
    between := h'.between
    ops := h.ops.trans h'.ops
    emptied := fun hop => h'.emptied (hmem true hop)
    unlocked := h'.unlocked
    ready := fun hno => h'.ready fun ok hop => hno ok (newOps_mono h.ops (List.prefix_refl _) hop)
    success := fun hs' ok hop => h'.success hs' ok (hmem ok hop) }

theorem appendRaw_obeys (hroom : cfg.logBase ≤ cfg.backingSize) (drv : Driver) (h : Between cfg f s)
    (hu : s.unlocked = true) (hready : Ready cfg f s) (v : List UInt8) :
    AppendLeaves cfg f s (wearLevelingAppendRaw cfg drv s v) := by
  obtain ⟨hlt, hbelow⟩ := hready
  obtain ⟨w₁, w₂⟩ := backingStoreWrite_obeys drv h.obeys hu v h.aligned (word_fits h.aligned hlt) hbelow
  have hnew : newOps s (backingStoreWrite drv s s.writeAddress v).2 =
      [.write s.writeAddress v (drv.ok s.ops.length)] := List.drop_left
  have hquiet : NoErase s (backingStoreWrite drv s s.writeAddress v).2 := by
    simp [NoErase, hnew]
  have haligned : (s.writeAddress + cfg.writeSize) % cfg.writeSize = 0 := by
    rw [Nat.add_mod_right]
    exact h.aligned
  have hpre : s.ops <+: (backingStoreWrite drv s s.writeAddress v).2.ops := List.prefix_append _ _
  simp only [wearLevelingAppendRaw]
  cases hok : drv.ok s.ops.length with
  | false =>
    rw [backingStoreWrite_fst, hok, if_neg Bool.false_ne_true]
    have hwritten : (f.applyAll (backingStoreWrite drv s s.writeAddress v).2.ops).written =
        (f.applyAll s.ops).written := by
      simp only [backingStoreWrite, hok]
      rw [applyAll_snoc]
      rfl
    exact ⟨⟨⟨w₁, h.aligned⟩, hpre, fun hop => absurd hop (hquiet true)⟩, hu,
      fun _ => ⟨hlt, fun a ha => hbelow a (hwritten ▸ ha)⟩, Status.noConfusion⟩
  | true =>
    rw [backingStoreWrite_fst, hok, if_pos rfl]
    simp only [wearLevelingConsolidateIfNeeded]
    split
    · obtain ⟨c₁, c₂, c₃, c₄⟩ := consolidateForce_obeys hroom drv
        (s := { (backingStoreWrite drv s s.writeAddress v).2 with
          writeAddress := s.writeAddress + cfg.writeSize }) (w₁.congr rfl rfl) hu
      obtain ⟨-, hforce, -⟩ := consolidateForce_spec cfg drv
        { (backingStoreWrite drv s s.writeAddress v).2 with
          writeAddress := s.writeAddress + cfg.writeSize }
      generalize wearLevelingConsolidateForce cfg drv _ = r at c₁ c₂ c₃ c₄ hforce
      rcases c₄ with ⟨hmem, hempty⟩ | ⟨hmem, ha⟩
      · exact ⟨⟨⟨c₁, hempty.writeAddress ▸ logBase_aligned cfg⟩, hpre.trans hforce, fun _ => hempty⟩, c₂,
          fun hno => absurd (newOps_mono hpre (List.prefix_refl _) hmem) (hno true),
          fun hs => absurd hs c₃⟩
      · have herase : StoreOp.erase false ∈ newOps s r.2 :=
          newOps_mono hpre (List.prefix_refl _) (hmem ▸ List.mem_singleton_self _)
        refine ⟨⟨⟨c₁, ha ▸ haligned⟩, hpre.trans hforce, fun hop => ?_⟩, c₂,
          fun hno => absurd herase (hno false), fun hs => absurd hs c₃⟩
        rcases (mem_newOps_trans hpre hforce).mp hop with hop | hop
        · exact absurd hop (hquiet true)
        · exact absurd (hmem ▸ hop) (by decide)
    · rename_i hge
      exact ⟨⟨⟨w₁.congr rfl rfl, haligned⟩, hpre, fun hop => absurd hop (hquiet true)⟩, hu,
        fun _ => ⟨Nat.lt_of_not_le hge, w₂⟩, fun _ => hquiet⟩

theorem appendWords_obeys (hroom : cfg.logBase ≤ cfg.backingSize) (drv : Driver)
    (vs : List (List UInt8)) : ∀ {s : State}, Between cfg f s → s.unlocked = true → Ready cfg f s →
      AppendLeaves cfg f s (appendWords cfg drv s vs) := by
  induction vs with
  | nil => exact fun h hu hready => .of_same h hu hready
  | cons v vs ih =>
    intro s h hu hready
    have hraw := appendRaw_obeys hroom drv h hu hready v
    simp only [appendWords]
    split
    · rename_i hs
      exact hraw.trans hs (ih hraw.between hraw.unlocked (hraw.ready (hraw.success hs)))
    · exact hraw

theorem writeRaw_obeys (hroom : cfg.logBase ≤ cfg.backingSize) (drv : Driver) (fuel : Nat) :
    ∀ {s : State} (address : Nat) (p : List UInt8), Between cfg f s → s.unlocked = true →
      Ready cfg f s → AppendLeaves cfg f s (wearLevelingWriteRaw cfg drv fuel s address p) := by
  induction fuel with
  | zero => exact fun _ _ h hu hready => .of_same h hu hready
  | succ fuel ih =>
    intro s address p h hu hready
    simp only [wearLevelingWriteRaw]
    split
    · have hwords := appendWords_obeys hroom drv ((nextEntry cfg address p).storedWords cfg) h hu hready
      split
      · rename_i hs
        exact hwords.trans hs (ih _ _ hwords.between hwords.unlocked (hwords.ready (hwords.success hs)))
      · exact hwords
    · exact .of_same h hu hready

/-! ## Playback -/

theorem readWord_aligned {drv : Driver} {cond : Prop} [Decidable cond] {k : Nat} {r r' : Nat × Raw8}
    (h : readWord cfg drv m cond k r = some r') (hr : r.1 % cfg.writeSize = 0) : r'.1 % cfg.writeSize = 0 := by
  unfold readWord at h
  split at h
  · split at h
    · cases h
    · cases h
      rw [Nat.add_mod_right]
      exact hr
  · cases h
    exact hr

def PlayStep.address : PlayStep → Nat
  | .stop _ address => address
  | .next address _ => address

theorem playMultibyte_aligned (m : Mem UInt8) {a : Nat} (log : Raw8) (c : Cache) (ha : a % cfg.writeSize = 0) :
    (playMultibyte cfg drv m a log c).address % cfg.writeSize = 0 := by
  unfold playMultibyte
  split
  · exact ha
  · rename_i h₁
    have e₁ := readWord_aligned h₁ ha
    dsimp only
    split
    · exact e₁
    · split
      · exact e₁
      · rename_i h₂
        have e₂ := readWord_aligned h₂ e₁
        split
        · exact e₂
        · rename_i h₃
          have e₃ := readWord_aligned h₃ e₂
          split
          · exact e₃
          · rename_i h₄
            exact readWord_aligned h₄ e₃

theorem playStep_aligned (m : Mem UInt8) {a : Nat} (c : Cache) (ha : a % cfg.writeSize = 0) :
    (playStep cfg drv m a c).address % cfg.writeSize = 0 := by
  have hnext : (a + cfg.writeSize) % cfg.writeSize = 0 := by
    rw [Nat.add_mod_right]
    exact ha
  unfold playStep
  split
  · exact ha
  · split
    · exact ha
    · dsimp only
      split
      · exact playMultibyte_aligned drv m _ c hnext
      · split
        · unfold playOptimized64
          dsimp only
          split <;> exact hnext
        · split
          · unfold playWord01
            dsimp only
            split <;> exact hnext
          · exact hnext

theorem playLoop_aligned (m : Mem UInt8) (fuel : Nat) : ∀ {a : Nat} (c : Cache), a % cfg.writeSize = 0 →
      (playLoop cfg drv m fuel a c).2.1 % cfg.writeSize = 0 := by
  induction fuel with
  | zero => exact fun _ h => h
  | succ fuel ih =>
    intro a c ha
    rw [playLoop]
    split
    · have hstep := playStep_aligned drv m c ha
      cases hs : playStep cfg drv m a c with
      | stop status b =>
        rw [hs] at hstep
        exact hstep
      | next b d =>
        rw [hs] at hstep
        exact ih d hstep
    · exact ha

/-! ## The calls -/

/-- The log in `m`, as the store is read, ends at an empty word before the end of the store. -/
def LogEnds (cfg : Config) (drv : Driver) (m : Mem UInt8) : Prop :=
  ∃ w d, (reader cfg drv).Plays m cfg.logBase (baseCache cfg m) w d ∧ w < cfg.backingSize ∧
    playStep cfg drv m w d = .stop .success w

theorem playMultibyte_stop {drv : Driver} {a b : Nat} {log : Raw8} {c : Cache} {status : Status}
    (h : playMultibyte cfg drv m a log c = .stop status b) : status = .failed := by
  unfold playMultibyte at h
  split at h
  · cases h
    rfl
  · dsimp only at h
    repeat' split at h
    all_goals cases h
    all_goals rfl

theorem playStep_stop_success {drv : Driver} {a b : Nat} {c : Cache} (h : playStep cfg drv m a c = .stop .success b)
    : b = a := by
  unfold playStep at h
  split at h
  · cases h
  · split at h
    · cases h
      rfl
    · dsimp only at h
      split at h
      · cases playMultibyte_stop h
      · split at h
        · unfold playOptimized64 at h
          dsimp only at h
          split at h <;> cases h
        · split at h
          · unfold playWord01 at h
            dsimp only at h
            split at h <;> cases h
          · cases h

theorem playLoop_ends {drv : Driver} (fuel : Nat) :
    ∀ {a : Nat} {c : Cache}, cfg.backingSize - a ≤ fuel → (playLoop cfg drv m fuel a c).1 = .success →
      (playLoop cfg drv m fuel a c).2.1 < cfg.backingSize →
      ∃ w d, (reader cfg drv).Plays m a c w d ∧ w < cfg.backingSize ∧
        playStep cfg drv m w d = .stop .success w := by
  induction fuel with
  | zero =>
    intro a c hfuel _ hlt
    have hlt : a < cfg.backingSize := hlt
    omega
  | succ fuel ih =>
    intro a c hfuel hstatus hlt
    rw [playLoop] at hstatus hlt
    by_cases ha : a < cfg.backingSize
    · rw [if_pos ha] at hstatus hlt
      cases hs : playStep cfg drv m a c with
      | stop status b =>
        rw [hs] at hstatus
        cases hstatus
        have hb := playStep_stop_success hs
        exact ⟨a, c, .nil _ _, ha, hb ▸ hs⟩
      | next b d =>
        rw [hs] at hstatus hlt
        have hlt' := playStep_lt hs
        obtain ⟨w, e, hplays, hend⟩ := ih (by omega) hstatus hlt
        exact ⟨w, e, .cons (reader_step_of_next ha hs) hplays, hend⟩
    · rw [if_neg ha] at hlt
      exact absurd hlt ha

theorem logEnds_iff {drv : Driver} : LogEnds cfg drv m ↔
    (playLoop cfg drv m cfg.backingSize cfg.logBase (baseCache cfg m)).1 = .success ∧
      (playLoop cfg drv m cfg.backingSize cfg.logBase (baseCache cfg m)).2.1 < cfg.backingSize := by
  constructor
  · rintro ⟨w, d, hplays, hlt, hstop⟩
    obtain ⟨fuel, hfuel, hloop⟩ := playLoop_of_plays hplays cfg.backingSize (by omega)
    rw [hloop]
    cases fuel with
    | zero => omega
    | succ fuel =>
      rw [playLoop, if_pos hlt, hstop]
      exact ⟨rfl, hlt⟩
  · rintro ⟨hstatus, hlt⟩
    exact playLoop_ends cfg.backingSize (Nat.sub_le _ _) hstatus hlt

instance (drv : Driver) (m : Mem UInt8) : Decidable (LogEnds cfg drv m) :=
  decidable_of_iff' _ logEnds_iff

theorem consolidateForce_leaves (hroom : cfg.logBase ≤ cfg.backingSize) (drv : Driver) (h : Between cfg f s)
    (hu : s.unlocked = true) : Leaves cfg f s (wearLevelingConsolidateForce cfg drv s).2 := by
  obtain ⟨c₁, -, -, c₄⟩ := consolidateForce_obeys hroom drv h.obeys hu
  obtain ⟨-, hpre, -⟩ := consolidateForce_spec cfg drv s
  rcases c₄ with ⟨-, hempty⟩ | ⟨hmem, ha⟩
  · exact ⟨⟨c₁, hempty.writeAddress ▸ logBase_aligned cfg⟩, hpre, fun _ => hempty⟩
  · exact ⟨⟨c₁, ha ▸ h.aligned⟩, hpre, fun hop => absurd (hmem ▸ hop) (by decide)⟩

theorem Leaves.of_same (h : Between cfg f s') (hops : s'.ops = s.ops) : Leaves cfg f s s' where
  between := h
  ops := hops ▸ List.prefix_refl _
  emptied hop := absurd hop (noErase_of_same hops true)

theorem Leaves.congr {s₀ : State} (h : Leaves cfg f s s') (hops : s.ops = s₀.ops) : Leaves cfg f s₀ s' :=
  ⟨h.between, hops ▸ h.ops, fun hop => h.emptied (by rwa [newOps, hops])⟩

theorem playback_leaves (hroom : cfg.logBase ≤ cfg.backingSize) (drv : Driver) (h : Obeys cfg f s)
    (hcache : s.cache = baseCache cfg s.store) (hcare : s.unlocked = true ∨ LogEnds cfg drv s.store) :
    Leaves cfg f s (wearLevelingPlaybackLog cfg drv s).2 := by
  have haligned := playLoop_aligned drv s.store cfg.backingSize s.cache (logBase_aligned cfg)
  have hplayed : ∀ (c : Cache) (w : Nat), w % cfg.writeSize = 0 →
      Between cfg f { s with cache := c, writeAddress := w } :=
    fun _ _ hw => ⟨h.congr rfl rfl, hw⟩
  simp only [wearLevelingPlaybackLog, wearLevelingConsolidateIfNeeded]
  rcases hcare with hu | hends
  · split
    · exact (consolidateForce_leaves hroom drv (hplayed _ _ haligned) hu).congr rfl
    · split
      · exact (consolidateForce_leaves hroom drv (hplayed _ _ haligned) hu).congr rfl
      · exact .of_same (hplayed _ _ haligned) rfl
  · obtain ⟨hstatus, hlt⟩ := logEnds_iff.mp hends
    rw [← hcache] at hstatus hlt
    rw [hstatus, if_neg (by decide), if_neg (Nat.not_le.mpr hlt)]
    exact .of_same (hplayed _ _ haligned) rfl

def readsLog (cfg : Config) (drv : Driver) : Bool :=
  drv.initOk && bulkReadOk cfg drv 0 (cfg.logicalSize / cfg.writeSize)

theorem init_unread {drv : Driver} (h : readsLog cfg drv = false) (s : State) :
    (wearLevelingInit cfg drv s).2 = wearLevelingClearCache cfg s := by
  simp only [wearLevelingInit, wearLevelingReadConsolidated]
  rcases Bool.and_eq_false_iff.mp h with h | h <;> simp [h, wearLevelingClearCache]

theorem init_obeys (hroom : cfg.logBase ≤ cfg.backingSize) (drv : Driver) (h : Obeys cfg f s)
    (hcare : readsLog cfg drv = true →
      (∀ a, drv.readOk a = true) ∧ (s.unlocked = true ∨ LogEnds cfg drv s.store)) :
    Leaves cfg f s (wearLevelingInit cfg drv s).2 := by
  cases hreads : readsLog cfg drv with
  | false =>
    rw [init_unread hreads]
    exact .of_same ⟨h.congr rfl rfl, logBase_aligned cfg⟩ rfl
  | true =>
    obtain ⟨hread, hends⟩ := hcare hreads
    have hbase : wearLevelingReadConsolidated cfg drv (wearLevelingClearCache cfg s) =
        (.success, { s with cache := baseCache cfg s.store, writeAddress := cfg.logBase }) :=
      readConsolidated_of hread rfl
    have hplay := playback_leaves hroom drv
      (s := { s with cache := baseCache cfg s.store, writeAddress := cfg.logBase })
      (h.congr rfl rfl) rfl hends
    simp only [wearLevelingInit, if_pos (Bool.and_eq_true_iff.mp hreads).1, hbase]
    rw [if_neg (by decide)]
    split
    · exact ⟨⟨hplay.between.obeys.congr rfl rfl, logBase_aligned cfg⟩, hplay.ops,
        fun hop => (hplay.emptied hop).congr rfl rfl rfl⟩
    · exact hplay.congr rfl

theorem unlock_noErase (s : State) : NoErase s (wearLevelingUnlock drv s).2 := by
  unfold wearLevelingUnlock backingStoreUnlock
  split
  · exact noErase_of_same rfl
  · dsimp only
    split <;> simp [NoErase, newOps]

theorem lock_noErase (s : State) : NoErase s (wearLevelingLock drv s).2 := by
  unfold wearLevelingLock backingStoreLock
  split
  · dsimp only
    split <;> simp [NoErase, newOps]
  · exact noErase_of_same rfl

theorem NoErase.trans {s'' : State} (h : NoErase s s') (h' : NoErase s' s'') (hpre : s.ops <+: s'.ops)
    (hpre' : s'.ops <+: s''.ops) : NoErase s s'' := fun ok hop =>
  ((mem_newOps_trans hpre hpre').mp hop).elim (h ok) (h' ok)

theorem refused_obeys {u : State} (h : Between cfg f u) (hpre : s.ops <+: u.ops) (hquiet : NoErase s u) :
    Leaves cfg f s (wearLevelingLock drv u).2 ∧ NoErase s (wearLevelingLock drv u).2 := by
  obtain ⟨-, -, l₃, l₄⟩ := wearLevelingLock_frame drv u
  have hno := hquiet.trans (lock_noErase drv u) hpre l₄
  exact ⟨⟨⟨(lock_obeys drv h.obeys).1, l₃ ▸ h.aligned⟩, hpre.trans l₄, fun hop => absurd hop (hno true)⟩, hno⟩

theorem Leaves.lock (h : Leaves cfg f s s') : Leaves cfg f s (wearLevelingLock drv s').2 := by
  obtain ⟨l₁, -, l₃, l₄⟩ := wearLevelingLock_frame drv s'
  obtain ⟨k₁, k₂⟩ := lock_obeys drv h.between.obeys
  refine ⟨⟨k₁, l₃ ▸ h.between.aligned⟩, h.ops.trans l₄, fun hop => ?_⟩
  have hempty := h.emptied (((mem_newOps_trans h.ops l₄).mp hop).resolve_right (lock_noErase drv s' true))
  exact hempty.congr l₁ (l₃.trans hempty.writeAddress) k₂

theorem erase_obeys (drv : Driver) (h : Between cfg f s) : let s' := (wearLevelingErase cfg drv s).2
    Leaves cfg f s s' ∧
      (.erase true ∉ newOps s s' → s'.store = s.store ∧
        (f.applyAll s'.ops).written = (f.applyAll s.ops).written) ∧
      (NoErase s s' → s'.writeAddress = s.writeAddress) := by
  obtain ⟨u₁, u₂, u₃⟩ := unlock_obeys drv h.obeys
  obtain ⟨k₁, -, k₃, hpre⟩ := wearLevelingUnlock_frame drv s
  have hquiet := unlock_noErase drv s
  simp only [wearLevelingErase]
  generalize wearLevelingUnlock drv s = u at u₁ u₂ u₃ k₁ k₃ hpre hquiet
  by_cases hu : u.1 = .failure
  · rw [if_pos hu]
    obtain ⟨l₁, -, l₃, -⟩ := wearLevelingLock_frame drv u.2
    exact ⟨(refused_obeys drv ⟨u₁, k₃ ▸ h.aligned⟩ hpre hquiet).1,
      fun _ => ⟨l₁.trans k₁, (lock_obeys drv u₁).2.trans u₂⟩, fun _ => l₃.trans k₃⟩
  · rw [if_neg hu]
    obtain ⟨e₁, e₂⟩ := backingStoreErase_obeys drv u₁ (u₃ hu)
    have hnew : newOps u.2 (wearLevelingClearCache cfg (backingStoreErase drv u.2).2) =
        [.erase (drv.ok u.2.ops.length)] := backingStoreErase_newOps drv u.2
    have hpre' : u.2.ops <+: (wearLevelingClearCache cfg (backingStoreErase drv u.2).2).ops :=
      List.prefix_append _ _
    have hmem : ∀ ok, drv.ok u.2.ops.length = ok →
        .erase ok ∈ newOps s (wearLevelingClearCache cfg (backingStoreErase drv u.2).2) := by
      intro ok hok
      exact newOps_mono hpre (List.prefix_refl _) (hnew ▸ hok ▸ List.mem_singleton_self _)
    have herase : Leaves cfg f s (wearLevelingClearCache cfg (backingStoreErase drv u.2).2) := by
      refine ⟨⟨e₁.congr rfl rfl, logBase_aligned cfg⟩, hpre.trans hpre', fun hop => ?_⟩
      have hop := ((mem_newOps_trans hpre hpre').mp hop).resolve_left (hquiet true)
      rw [hnew, List.mem_singleton, StoreOp.erase.injEq] at hop
      rw [backingStoreErase_fst, ← hop, if_pos rfl] at e₂
      refine ⟨rfl, fun _ _ => ?_, fun a ha => absurd ha ?_⟩
      · simp [wearLevelingClearCache, backingStoreErase, ← hop]
      · rw [wearLevelingClearCache, e₂]
        exact List.not_mem_nil
    have hkept : .erase true ∉ newOps s (wearLevelingClearCache cfg (backingStoreErase drv u.2).2) →
        (wearLevelingClearCache cfg (backingStoreErase drv u.2).2).store = s.store ∧
          (f.applyAll (wearLevelingClearCache cfg (backingStoreErase drv u.2).2).ops).written =
            (f.applyAll s.ops).written := by
      intro hno
      have hok : drv.ok u.2.ops.length = false := by
        by_contra h
        exact hno (hmem true (eq_true_of_ne_false h))
      rw [backingStoreErase_fst, hok, if_neg Bool.false_ne_true] at e₂
      refine ⟨?_, e₂.trans u₂⟩
      simp [wearLevelingClearCache, backingStoreErase, hok, k₁]
    have hnot : ¬ NoErase s (wearLevelingClearCache cfg (backingStoreErase drv u.2).2) :=
      fun hno => hno _ (hmem _ rfl)
    split
    · obtain ⟨l₁, -, -, l₄⟩ := wearLevelingLock_frame drv
        (wearLevelingClearCache cfg (backingStoreErase drv u.2).2)
      refine ⟨herase.lock drv, fun hno => ?_, fun hno => absurd (fun ok hop => hno ok ?_) hnot⟩
      · obtain ⟨h₁, h₂⟩ := hkept fun hop => hno (newOps_mono (List.prefix_refl _) l₄ hop)
        exact ⟨l₁.trans h₁, (lock_obeys drv herase.between.obeys).2.trans h₂⟩
      · exact newOps_mono (List.prefix_refl _) l₄ hop
    · exact ⟨herase, hkept, fun hno => absurd hno hnot⟩

theorem writeAndConsolidate_obeys (hroom : cfg.logBase ≤ cfg.backingSize) (drv : Driver) (h : Between cfg f s)
    (hu : s.unlocked = true) (hready : Ready cfg f s) (address : Nat) (value : List UInt8) :
    AppendLeaves cfg f s (writeAndConsolidate cfg drv s address value) := by
  have hraw := writeRaw_obeys hroom drv value.length address value h hu hready
  simp only [writeAndConsolidate]
  split
  · rename_i hs
    rw [wearLevelingConsolidateIfNeeded,
      if_neg (Nat.not_le.mpr (hraw.ready (hraw.success hs)).1)]
    exact ⟨hraw.toLeaves, hraw.unlocked, hraw.ready, fun _ => hraw.success hs⟩
  · exact hraw

/-- A write gets as far as the store: it is in range, it changes the cache, and the store is or can be
unlocked. -/
def Reaches (cfg : Config) (drv : Driver) (s : State) (address : Nat) (value : List UInt8) : Prop :=
  address + value.length ≤ cfg.logicalSize ∧ s.cache.readBlock address value.length ≠ value ∧
    (s.unlocked = true ∨ drv.ok s.ops.length = true)

instance (cfg : Config) (drv : Driver) (s : State) (address : Nat) (value : List UInt8) :
    Decidable (Reaches cfg drv s address value) := inferInstanceAs (Decidable (_ ∧ _ ∧ _))

theorem write_refused (h : Between cfg f s) {address : Nat} {value : List UInt8}
    (hreach : ¬ Reaches cfg drv s address value) : let s' := (wearLevelingWrite cfg drv s address value).2
    Leaves cfg f s s' ∧ NoErase s s' ∧ s'.store = s.store ∧ s'.writeAddress = s.writeAddress ∧
      (f.applyAll s'.ops).written = (f.applyAll s.ops).written := by
  have hsame : Leaves cfg f s s := .of_same h rfl
  simp only [wearLevelingWrite]
  by_cases hfit : address + value.length > cfg.logicalSize
  · rw [if_pos hfit]
    exact ⟨hsame, noErase_of_same rfl, rfl, rfl, rfl⟩
  by_cases hskip : s.cache.readBlock address value.length = value
  · rw [if_neg hfit, if_pos hskip]
    exact ⟨hsame, noErase_of_same rfl, rfl, rfl, rfl⟩
  rw [if_neg hfit, if_neg hskip]
  have hcached : Obeys cfg f { s with cache := s.cache.writeBlock address value } :=
    h.obeys.congr rfl rfl
  have hlock := (unlock_opens drv { s with cache := s.cache.writeBlock address value }).mp
  obtain ⟨u₁, u₂, -⟩ := unlock_obeys drv hcached
  obtain ⟨k₁, -, k₃, k₄⟩ := wearLevelingUnlock_frame drv { s with cache := s.cache.writeBlock address value }
  have hquiet := unlock_noErase drv { s with cache := s.cache.writeBlock address value }
  generalize wearLevelingUnlock drv { s with cache := s.cache.writeBlock address value } = u
    at u₁ u₂ k₁ k₃ k₄ hlock hquiet
  have hu : u.1 = .failure := by
    by_contra hne
    exact hreach ⟨Nat.le_of_not_lt hfit, hskip, hlock hne⟩
  obtain ⟨l₁, -, l₃, -⟩ := wearLevelingLock_frame drv u.2
  obtain ⟨r₁, r₂⟩ := refused_obeys drv (s := s) ⟨u₁, k₃ ▸ h.aligned⟩ k₄ hquiet
  rw [if_pos hu]
  exact ⟨r₁, r₂, l₁.trans k₁, l₃.trans k₃, (lock_obeys drv u₁).2.trans u₂⟩

theorem write_obeys (hroom : cfg.logBase ≤ cfg.backingSize) (drv : Driver) (h : Between cfg f s) {address : Nat}
    {value : List UInt8} (hreach : Reaches cfg drv s address value) (hready : Ready cfg f s) :
    let s' := (wearLevelingWrite cfg drv s address value).2
    Leaves cfg f s s' ∧ (NoErase s s' → Ready cfg f s') := by
  obtain ⟨hfit, hskip, hopen⟩ := hreach
  have hcached : Obeys cfg f { s with cache := s.cache.writeBlock address value } :=
    h.obeys.congr rfl rfl
  have hfail := (unlock_opens drv { s with cache := s.cache.writeBlock address value }).mpr hopen
  obtain ⟨u₁, u₂, u₃⟩ := unlock_obeys drv hcached
  obtain ⟨-, -, k₃, k₄⟩ := wearLevelingUnlock_frame drv { s with cache := s.cache.writeBlock address value }
  have hquiet := unlock_noErase drv { s with cache := s.cache.writeBlock address value }
  simp only [wearLevelingWrite]
  rw [if_neg (Nat.not_lt.mpr hfit), if_neg hskip]
  generalize wearLevelingUnlock drv { s with cache := s.cache.writeBlock address value } = u
    at u₁ u₂ u₃ k₃ k₄ hfail hquiet
  rw [if_neg hfail]
  have hready' : Ready cfg f u.2 :=
    ⟨k₃ ▸ hready.1, fun a ha => k₃ ▸ hready.2 a (u₂ ▸ ha)⟩
  have hwrite := writeAndConsolidate_obeys hroom drv ⟨u₁, k₃ ▸ h.aligned⟩ (u₃ hfail) hready' address value
  generalize writeAndConsolidate cfg drv u.2 address value = r at hwrite
  have hops : s.ops <+: u.2.ops := k₄
  have hraw : Leaves cfg f s r.2 := ⟨hwrite.between, hops.trans hwrite.ops, fun hop =>
    hwrite.emptied (((mem_newOps_trans hops hwrite.ops).mp hop).resolve_left (hquiet true))⟩
  have hrawReady : NoErase s r.2 → Ready cfg f r.2 := fun hno =>
    hwrite.ready fun ok hop => hno ok (newOps_mono hops (List.prefix_refl _) hop)
  split
  · obtain ⟨-, -, l₃, l₄⟩ := wearLevelingLock_frame drv r.2
    refine ⟨hraw.lock drv, fun hno => ?_⟩
    obtain ⟨hlt, hbelow⟩ := hrawReady fun ok hop => hno ok (newOps_mono (List.prefix_refl _) l₄ hop)
    exact ⟨l₃ ▸ hlt, fun a ha => l₃ ▸ hbelow a ((lock_obeys drv hraw.between.obeys).2 ▸ ha)⟩
  · exact ⟨hraw, hrawReady⟩

/-! ## Where the log ends -/

def LogKnown (cfg : Config) (f : Flash) (s : State) : Prop :=
  ∃ w c, LogInv cfg s.store w c ∧ (w < cfg.backingSize → WrittenBelow f s w)

end Obeys

/-- What became of the log: `whole` with the write address at its end, `torn` at an entry that was not
written completely, `mixed` with entries behind a torn one, `unread` with the write address elsewhere,
or `lost`. -/
inductive LogStatus where
  | whole
  | torn
  | mixed
  | unread
  | lost
  deriving DecidableEq, Repr

namespace LogStatus

/-- Power comes on, or the write address is set back without an erase. -/
def forget : LogStatus → LogStatus
  | whole | torn | unread => unread
  | mixed | lost => lost

def read : LogStatus → LogStatus
  | whole | torn | unread => whole
  | mixed | lost => lost

/-- Entries are appended, and the last word is written or not. -/
def append (failed : Bool) : LogStatus → LogStatus
  | whole => if failed then torn else whole
  | torn | mixed => mixed
  | unread | lost => lost

def Holds (cfg : Config) (f : Flash) (s : State) : LogStatus → Prop
  | whole => (∃ c, LogInv cfg s.store s.writeAddress c) ∧ Ready cfg f s
  | torn => LogKnown cfg f s ∧ Ready cfg f s
  | mixed => Ready cfg f s
  | unread => LogKnown cfg f s
  | lost => True

variable {cfg : Config} {f : Flash} {s s' : State} {l : LogStatus}

theorem known_of_whole (h : Holds cfg f s whole) : LogKnown cfg f s :=
  let ⟨⟨c, hlog⟩, _, hbelow⟩ := h
  ⟨s.writeAddress, c, hlog, fun _ => hbelow⟩

theorem Holds.forget (h : l.Holds cfg f s) : l.forget.Holds cfg f s := by
  cases l with
  | whole => exact known_of_whole h
  | torn => exact h.1
  | unread => exact h
  | mixed | lost => exact trivial

theorem Holds.congr (h : l.Holds cfg f s) (hstore : s'.store = s.store)
    (hwritten : (f.applyAll s'.ops).written = (f.applyAll s.ops).written)
    (haddress : l = .unread ∨ s'.writeAddress = s.writeAddress) : l.Holds cfg f s' := by
  have hknown : LogKnown cfg f s → LogKnown cfg f s' := fun ⟨w, c, hlog, hbelow⟩ =>
    ⟨w, c, hstore ▸ hlog, fun hw a ha => hbelow hw a (hwritten ▸ ha)⟩
  have hready : s'.writeAddress = s.writeAddress → Ready cfg f s → Ready cfg f s' :=
    fun hw ⟨hlt, hbelow⟩ => ⟨hw ▸ hlt, fun a ha => hw ▸ hbelow a (hwritten ▸ ha)⟩
  cases l with
  | whole =>
    have hw := haddress.resolve_left nofun
    exact ⟨by rw [hstore, hw]; exact h.1, hready hw h.2⟩
  | torn => exact ⟨hknown h.1, hready (haddress.resolve_left nofun) h.2⟩
  | mixed => exact hready (haddress.resolve_left nofun) h
  | unread => exact hknown h
  | lost => exact trivial

end LogStatus

section Calls

variable (cfg : Config) (drv : Driver) (s : State) (l : LogStatus)

def StoreOp.isTorn : StoreOp → Bool
  | .write _ _ ok => !ok
  | _ => false

/-- What becomes of the log in a call, by the operations on the store. -/
def LogStatus.after (call : Call) : LogStatus :=
  let ops := newOps s (call.exec cfg drv s).2
  if .erase true ∈ ops then .whole
  else
    match call with
    | .init =>
      if .erase false ∈ ops then .lost else if readsLog cfg drv then l.read else l.forget
    | .erase => if .erase false ∈ ops then l.forget else l
    | .write address value =>
      if .erase false ∈ ops then .lost
      else if Reaches cfg drv s address value then l.append (ops.any StoreOp.isTorn) else l

/-- When a call may be made. The log is read with the store unlocked or ending before the end of the
store, and without a failing read. A write gets as far as the store only behind an initialisation that
read the log, or an erase, with none that failed in between. -/
def Careful : Call → Prop
  | .init => readsLog cfg drv = true →
      (∀ a, drv.readOk a = true) ∧ (s.unlocked = true ∨ LogEnds cfg drv s.store)
  | .erase => True
  | .write address value => Reaches cfg drv s address value → l = .whole ∨ l = .torn ∨ l = .mixed

end Calls

def CarefulRun (cfg : Config) : State → LogStatus → List (Driver × Call) → Prop
  | _, _, [] => True
  | s, l, (drv, call) :: calls => Careful cfg drv s l call ∧
      CarefulRun cfg (call.exec cfg drv s).2 (l.after cfg drv s call) calls

section Run

variable {cfg : Config} {f : Flash} {drv : Driver} {s : State} {l : LogStatus}

theorem Emptied.whole {s' : State} (hroom : cfg.logBase < cfg.backingSize) (h : Emptied cfg f s') :
    LogStatus.Holds cfg f s' .whole := by
  obtain ⟨ha, hblank, hbelow⟩ := h
  rw [LogStatus.Holds, Ready, ha]
  exact ⟨⟨_, fun _ _ => .nil _ _, fun _ => hblank⟩, hroom, hbelow⟩

theorem Leaves.after {s' : State} (hroom : cfg.logBase < cfg.backingSize) (h : Leaves cfg f s s')
    {t : LogStatus} (ht : .erase true ∉ newOps s s' → t.Holds cfg f s') :
    (if .erase true ∈ newOps s s' then LogStatus.whole else t).Holds cfg f s' := by
  split
  · rename_i hop
    exact (h.emptied hop).whole hroom
  · rename_i hop
    exact ht hop

theorem init_holds (hl : l.Holds cfg f s) (hcare : Careful cfg drv s l .init)
    (hno : NoErase s (wearLevelingInit cfg drv s).2) :
    (if readsLog cfg drv then l.read else l.forget).Holds cfg f (wearLevelingInit cfg drv s).2 := by
  cases hreads : readsLog cfg drv with
  | false =>
    rw [init_unread hreads]
    have hforget : l.forget = .unread ∨ l.forget = .lost := by cases l <;> simp [LogStatus.forget]
    rcases hforget with h | h
    · exact hl.forget.congr rfl rfl (.inl h)
    · rw [if_neg Bool.false_ne_true, h]
      exact trivial
  | true =>
    obtain ⟨hread, -⟩ := hcare hreads
    have hwhole : LogKnown cfg f s → LogStatus.Holds cfg f (wearLevelingInit cfg drv s).2 .whole := by
      rintro ⟨w, c, hlog, hbelow⟩
      rw [init_of_log (Bool.and_eq_true_iff.mp hreads).1 hread hlog] at hno ⊢
      by_cases hw : w < cfg.backingSize
      · rw [wearLevelingConsolidateIfNeeded, if_neg (Nat.not_le.mpr hw)]
        exact ⟨⟨c, hlog⟩, hw, hbelow hw⟩
      · obtain ⟨-, -, hends⟩ := consolidateForce_spec cfg drv { s with cache := c, writeAddress := w }
        rw [wearLevelingConsolidateIfNeeded, if_pos (Nat.le_of_not_lt hw)] at hno
        -- a consolidation tries an erase
        have htried : ∃ ok, .erase ok ∈ newOps s
            (wearLevelingConsolidateForce cfg drv { s with cache := c, writeAddress := w }).2 := by
          rcases hends with ⟨-, h⟩ | ⟨-, h⟩ | ⟨-, -, -, h⟩
          · exact ⟨true, h.erased⟩
          · exact ⟨true, h.erased⟩
          · exact ⟨false, h⟩
        obtain ⟨ok, hop⟩ := htried
        dsimp only at hno
        split at hno <;> exact absurd hop (hno ok)
    cases l with
    | whole => exact hwhole (LogStatus.known_of_whole hl)
    | torn => exact hwhole hl.1
    | unread => exact hwhole hl
    | mixed | lost => exact trivial

theorem write_holds {address : Nat} {value : List UInt8} (hl : l.Holds cfg f s)
    (hreach : Reaches cfg drv s address value)
    (hno : NoErase s (wearLevelingWrite cfg drv s address value).2)
    (hready : Ready cfg f (wearLevelingWrite cfg drv s address value).2) :
    (l.append ((newOps s (wearLevelingWrite cfg drv s address value).2).any StoreOp.isTorn)).Holds cfg f
      (wearLevelingWrite cfg drv s address value).2 := by
  cases l with
  | whole =>
    obtain ⟨⟨c, hlog⟩, -⟩ := hl
    obtain ⟨-, hends⟩ := write_spec cfg drv hlog hreach.1 hreach.2.1
    generalize wearLevelingWrite cfg drv s address value = r at hno hready hends
    have hwhole : (∃ c', LogInv cfg r.2.store r.2.writeAddress c') →
        (LogStatus.append ((newOps s r.2).any StoreOp.isTorn) .whole).Holds cfg f r.2 := by
      intro h
      simp only [LogStatus.append]
      split
      · exact ⟨LogStatus.known_of_whole ⟨h, hready⟩, hready⟩
      · exact ⟨h, hready⟩
    cases hends with
    | success _ c' log => exact hwhole ⟨c', log⟩
    | fresh _ _ erased => exact absurd erased (hno true)
    | broken _ broken => exact absurd broken.erased (hno true)
    | failed _ w c' log _ _ _ _ _ within cut =>
      rcases cut with hw | ⟨a, v, hop⟩ | hop
      · exact hwhole ⟨c', hw ▸ log⟩
      · have htorn : (newOps s r.2).any StoreOp.isTorn = true := List.any_eq_true.mpr ⟨_, hop, rfl⟩
        rw [htorn]
        exact ⟨⟨w, c', log, fun hw => hready.2.mono (within hw)⟩, hready⟩
      · exact absurd hop (hno false)
  | torn | mixed => exact hready
  | unread | lost => exact trivial

theorem exec_holds (hroom : cfg.logBase < cfg.backingSize) (h : Between cfg f s) (hl : l.Holds cfg f s)
    (call : Call) (hcare : Careful cfg drv s l call) :
    Between cfg f (call.exec cfg drv s).2 ∧ (l.after cfg drv s call).Holds cfg f (call.exec cfg drv s).2 := by
  have hle := Nat.le_of_lt hroom
  have hnone : ∀ {s' : State}, .erase true ∉ newOps s s' → .erase false ∉ newOps s s' → NoErase s s' :=
    fun ht hf ok => by cases ok <;> assumption
  cases call with
  | init =>
    have hleaves := init_obeys hle drv h.obeys hcare
    refine ⟨hleaves.between, hleaves.after hroom fun ht => ?_⟩
    split
    · exact trivial
    · rename_i hf
      exact init_holds hl hcare (hnone ht hf)
  | erase =>
    obtain ⟨hleaves, hkept, hw⟩ := erase_obeys drv h
    refine ⟨hleaves.between, hleaves.after hroom fun ht => ?_⟩
    obtain ⟨hstore, hwritten⟩ := hkept ht
    split
    · have hforget : l.forget = .unread ∨ l.forget = .lost := by cases l <;> simp [LogStatus.forget]
      rcases hforget with h | h
      · exact hl.forget.congr hstore hwritten (.inl h)
      · rw [h]
        exact trivial
    · rename_i hf
      exact hl.congr hstore hwritten (.inr (hw (hnone ht hf)))
  | write address value =>
    by_cases hreach : Reaches cfg drv s address value
    · have hready : Ready cfg f s := by
        rcases hcare hreach with rfl | rfl | rfl
        · exact hl.2
        · exact hl.2
        · exact hl
      obtain ⟨hleaves, hready'⟩ := write_obeys hle drv h hreach hready
      refine ⟨hleaves.between, hleaves.after hroom fun ht => ?_⟩
      rw [if_pos hreach]
      split
      · exact trivial
      · rename_i hf
        exact write_holds hl hreach (hnone ht hf) (hready' (hnone ht hf))
    · obtain ⟨hleaves, hno, hstore, hw, hwritten⟩ := write_refused drv h hreach
      refine ⟨hleaves.between, hleaves.after hroom fun _ => ?_⟩
      rw [if_neg (show .erase false ∉ newOps s ((Call.write address value).exec cfg drv s).2 from hno false),
        if_neg hreach]
      exact hl.congr hstore hwritten (.inr hw)

theorem run_obeys (hroom : cfg.logBase < cfg.backingSize) (calls : List (Driver × Call)) :
    ∀ {s : State} {l : LogStatus}, Between cfg f s → l.Holds cfg f s → CarefulRun cfg s l calls →
      Between cfg f (run cfg s calls) := by
  induction calls with
  | nil => exact fun h _ _ => h
  | cons x calls ih =>
    intro s l h hl hcare
    obtain ⟨h', hl'⟩ := exec_holds hroom h hl x.2 hcare.1
    exact ih h' hl' hcare.2

end Run

/-- What may be known of the log when power comes on: nothing, or that it runs to an end with none of
the written words behind it. -/
def LogStatus.Starts (cfg : Config) (m : Mem UInt8) (written : List Nat) : LogStatus → Prop
  | lost => True
  | unread => ∃ w c, LogInv cfg m w c ∧ (w < cfg.backingSize → ∀ address ∈ written, address < w)
  | whole | torn | mixed => False

/-- **Flash discipline.** Power comes on over a store with some words written. In every run of calls
made with care, whatever fails, each operation keeps the rules of the flash. -/
theorem flash_discipline (cfg : Config) (hroom : cfg.logicalSize + 8 < cfg.backingSize)
    (m : Mem UInt8) (written : List Nat) (l : LogStatus) (hstart : l.Starts cfg m written)
    (calls : List (Driver × Call)) (hcare : CarefulRun cfg (.powerUp m) l calls) :
    Disciplined cfg ⟨written, false⟩ (run cfg (.powerUp m) calls).ops := by
  have hl : l.Holds cfg ⟨written, false⟩ (.powerUp m) := by
    cases l with
    | lost => exact trivial
    | unread => exact hstart
    | whole | torn | mixed => exact hstart.elim
  have hobeys : Obeys cfg ⟨written, false⟩ (.powerUp m) := ⟨trivial, rfl⟩
  exact (run_obeys hroom calls ⟨hobeys, Nat.zero_mod _⟩ hl hcare).obeys.disciplined

def failsAt (n : Nat) : Driver := ⟨true, fun _ => true, fun i => i ≠ n, fun _ => 0⟩

/-- A store with one entry in its log, a failing word, a restart, an erase that fails, another restart,
and a consolidation. -/
def carefulRun : List (Driver × Call) :=
  [(.working fun _ => 0, .init), (failsAt 1, .write 1 [8]), (.working fun _ => 0, .init),
    (.working fun _ => 0, .write 1 [9]), (failsAt 7, .erase), (.working fun _ => 0, .init),
    (.working fun _ => 0, .write 2 [7]), (.working fun _ => 0, .write 3 [6]), (.working fun _ => 0, .write 4 [5])]

def oneEntry : Mem UInt8 := Mem.writeBlock (fun _ => 0) 16 [64, 5]

theorem flash_discipline_tiny : Disciplined .tiny ⟨[16], false⟩
    (run .tiny (.powerUp oneEntry) carefulRun).ops := by
  have hstart : LogStatus.Starts .tiny oneEntry [16] .unread :=
    ⟨18, _, @LogInv.entry .tiny _ _ 0 1 [5] _ (erased_logInv .tiny) (by decide) (by decide)
      (by decide) (by decide) (by decide), fun _ => by decide⟩
  refine flash_discipline .tiny (by decide) oneEntry [16] .unread hstart carefulRun ?_
  refine ⟨fun _ => ⟨fun _ => rfl, .inr ?_⟩, fun _ => .inl ?_, fun _ => ⟨fun _ => rfl, .inr ?_⟩,
    fun _ => .inl ?_, trivial, fun _ => ⟨fun _ => rfl, .inr ?_⟩, fun _ => .inl ?_, fun _ => .inl ?_,
    fun _ => .inl ?_, trivial⟩ <;> decide +kernel

/-- A log that starts with a word of no known type is erased by the initialisation before the store is
unlocked. -/
theorem locked_erase :
    ¬ Disciplined .tiny ⟨[16], false⟩ (run .tiny (.powerUp fun x => if x = 16 then 0xC0 else 0)
      [(.working fun _ => 0, .init)]).ops := by
  decide +kernel

end WearLeveling
end VialQmk
