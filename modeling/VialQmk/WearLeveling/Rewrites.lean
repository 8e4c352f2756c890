import VialQmk.WearLeveling.PowerLoss
import VialQmk.Lib.Writes

/-!
# WearLeveling.Rewrites

What a power loss leaves when a write had to consolidate: the store is erased first, and then holds the first bytes of
the consolidated data.

* `write_rewrites`: a write does not erase the store, or it leaves such a part of the data.
* `PartOf.base`: what the next initialisation makes of it.
* `writes_found`: what it finds when a sequence of writes was cut short.
-/

namespace VialQmk
namespace WearLeveling

open Lib

/-- The first bytes of the consolidated data of `c`, in a store that was erased. -/
def PartOf (cfg : Config) (c : Cache) (m : Mem UInt8) : Prop :=
  ∃ n, m = Mem.writeBlock (fun _ => 0) 0 ((cacheBytes cfg c ++ checksumBytes cfg c).take n)

/-- A call that erases the store ends with a part of the data of its cache. -/
def Rewrites (cfg : Config) (s : State) (r : Status × State) : Prop :=
  .erase true ∉ newOps s r.2 ∨
    .erase true ∈ newOps s r.2 ∧ r.1 ≠ .success ∧ PartOf cfg r.2.cache r.2.store

section Rewrites

variable {cfg : Config} (drv : Driver) {s s' : State} {r : Status × State}

theorem newOps_of_append {ops : List StoreOp} (h : s'.ops = s.ops ++ ops) : newOps s s' = ops := by
  rw [newOps, h, List.drop_left]

theorem Rewrites.after (h : Rewrites cfg s' r) (hpre : s.ops <+: s'.ops) (hpost : s'.ops <+: r.2.ops)
    (hnone : .erase true ∉ newOps s s') : Rewrites cfg s r := by
  rw [Rewrites, newOps_trans hpre hpost]
  refine h.imp (fun hrest hmem => ?_) fun hpart => ⟨List.mem_append_right _ hpart.1, hpart.2⟩
  rcases List.mem_append.mp hmem with hmem | hmem
  · exact hnone hmem
  · exact hrest hmem

theorem writeBulk_part (vs : List (List UInt8)) (hvs : ∀ v ∈ vs, v.length = cfg.writeSize) :
    ∀ (s : State) (address : Nat), ∃ n, (backingStoreWriteBulk cfg drv s address vs).2.store =
      s.store.writeBlock address (vs.flatten.take n) := by
  induction vs with
  | nil => exact fun _ _ => ⟨0, rfl⟩
  | cons v vs ih =>
    intro s address
    obtain ⟨hv, hrest⟩ := List.forall_mem_cons.mp hvs
    cases hok : drv.ok s.ops.length with
    | false => exact ⟨0, by simp [backingStoreWriteBulk, backingStoreWrite, hok, Mem.writeBlock]⟩
    | true =>
      obtain ⟨n, hn⟩ := ih hrest (backingStoreWrite drv s address v).2 (address + cfg.writeSize)
      refine ⟨v.length + n, ?_⟩
      rw [backingStoreWriteBulk, if_pos (show (backingStoreWrite drv s address v).1 = true from hok), hn,
        List.flatten_cons, List.take_length_add_append, Mem.writeBlock_append, hv]
      simp [backingStoreWrite, hok]

theorem writeConsolidatedData_part (hs : s.store = fun _ => 0) :
    PartOf cfg s.cache (writeConsolidatedData cfg drv s).2.store := by
  have hdata : (cacheBytes cfg s.cache).length % cfg.writeSize = 0 := by
    rw [cacheBytes_length]
    exact cfg.logical_mod
  have hsum : (checksumBytes cfg s.cache).length % cfg.writeSize = 0 := eight_mod cfg
  obtain ⟨n, hn⟩ := writeBulk_part drv _ (wordsOf_length hdata) s 0
  rw [wordsOf_flatten hdata, hs] at hn
  have hcomplete := writeBulk_of_true cfg drv _ (wordsOf_length hdata) s 0
  rw [wordsOf_flatten hdata, hs] at hcomplete
  simp only [writeConsolidatedData]
  generalize backingStoreWriteBulk cfg drv s 0 (wordsOf cfg (cacheBytes cfg s.cache)) = bulk at hn hcomplete
  cases hok : bulk.1 with
  | false =>
    refine ⟨min n (cacheBytes cfg s.cache).length, ?_⟩
    rw [List.take_append_of_le_length (Nat.min_le_right _ _), ← List.take_eq_take_min]
    exact hn
  | true =>
    obtain ⟨k, hk⟩ := writeBulk_part drv _ (wordsOf_length hsum) bulk.2 cfg.logicalSize
    rw [wordsOf_flatten hsum, hcomplete hok] at hk
    refine ⟨(cacheBytes cfg s.cache).length + k, ?_⟩
    rw [List.take_length_add_append, Mem.writeBlock_append, Nat.zero_add, cacheBytes_length]
    exact hk

theorem consolidateForce_rewrites (s : State) : Rewrites cfg s (wearLevelingConsolidateForce cfg drv s) := by
  simp only [wearLevelingConsolidateForce]
  cases hok : drv.ok s.ops.length with
  | false =>
    left
    rw [if_neg (show ¬(backingStoreErase drv s).1 = true by simp [hok]), newOps_of_append rfl, hok]
    decide
  | true =>
    right
    have he : (backingStoreErase drv s).2.store = fun _ => 0 := by simp [backingStoreErase, hok]
    have hmem : StoreOp.erase true ∈ newOps s (backingStoreErase drv s).2 :=
      mem_newOps_of_append rfl (by rw [hok]; exact List.mem_singleton_self _)
    obtain ⟨hcache, hops, hstatus⟩ := writeConsolidated_spec cfg drv he
    obtain ⟨u₁, u₂, -, -⟩ := wearLevelingUnlock_frame drv (backingStoreErase drv s).2
    have hpart : PartOf cfg _ _ := writeConsolidatedData_part drv (u₁.trans he)
    rw [if_pos (show (backingStoreErase drv s).1 = true from hok)]
    refine ⟨newOps_mono (List.prefix_refl _) hops hmem, ?_, ?_⟩
    · rcases hstatus with ⟨h, -⟩ | ⟨h, -⟩ <;> rw [h] <;> decide
    · rw [u₂] at hpart
      dsimp only
      rw [hcache, wearLevelingWriteConsolidated]
      dsimp only
      split
      · rw [(wearLevelingLock_frame drv _).1]
        exact hpart
      · exact hpart

theorem consolidateIfNeeded_rewrites (s : State) : Rewrites cfg s (wearLevelingConsolidateIfNeeded cfg drv s) := by
  rw [wearLevelingConsolidateIfNeeded]
  split
  · exact consolidateForce_rewrites drv s
  · left
    simp [newOps]

theorem appendRaw_rewrites (s : State) (value : List UInt8) :
    Rewrites cfg s (wearLevelingAppendRaw cfg drv s value) := by
  have hword : StoreOp.erase true ∉ newOps s (backingStoreWrite drv s s.writeAddress value).2 := by
    rw [newOps_of_append rfl]
    simp
  simp only [wearLevelingAppendRaw]
  split
  · exact (consolidateIfNeeded_rewrites drv _).after (List.prefix_append _ _)
      (consolidateIfNeeded_spec cfg drv _).2.1 hword
  · exact .inl hword

theorem Rewrites.of_success (h : Rewrites cfg s r) (hstatus : r.1 = .success) : .erase true ∉ newOps s r.2 :=
  h.resolve_right fun hpart => hpart.2.1 hstatus

theorem appendWords_rewrites (vs : List (List UInt8)) : ∀ s : State, Rewrites cfg s (appendWords cfg drv s vs) := by
  induction vs with
  | nil => exact fun s => .inl (by simp [appendWords, newOps])
  | cons v vs ih =>
    intro s
    have hfirst : Rewrites cfg s _ := appendRaw_rewrites drv s v
    simp only [appendWords]
    split
    · rename_i hstatus
      exact (ih _).after ((wearLevelingAppendRaw_causal cfg s v).runs drv).ops
        ((appendWords_causal cfg vs _).runs drv).ops (hfirst.of_success hstatus)
    · exact hfirst

theorem writeRaw_rewrites (fuel : Nat) : ∀ (s : State) (address : Nat) (p : List UInt8),
    Rewrites cfg s (wearLevelingWriteRaw cfg drv fuel s address p) := by
  induction fuel with
  | zero => exact fun s _ _ => .inl (by simp [wearLevelingWriteRaw, newOps])
  | succ fuel ih =>
    intro s address p
    have hfirst : Rewrites cfg s _ := appendWords_rewrites drv ((nextEntry cfg address p).storedWords cfg) s
    simp only [wearLevelingWriteRaw]
    split
    · split
      · rename_i hstatus
        exact (ih _ _ _).after ((appendWords_causal cfg _ s).runs drv).ops
          ((wearLevelingWriteRaw_causal cfg fuel _ _ _).runs drv).ops (hfirst.of_success hstatus)
      · exact hfirst
    · left
      simp [newOps]

theorem writeAndConsolidate_rewrites (s : State) (address : Nat) (value : List UInt8) :
    Rewrites cfg s (writeAndConsolidate cfg drv s address value) := by
  have hraw : Rewrites cfg s _ := writeRaw_rewrites drv value.length s address value
  simp only [writeAndConsolidate]
  split
  · rename_i hstatus
    exact (consolidateIfNeeded_rewrites drv _).after ((wearLevelingWriteRaw_causal cfg _ s _ _).runs drv).ops
      (consolidateIfNeeded_spec cfg drv _).2.1 (hraw.of_success hstatus)
  · exact hraw

theorem Rewrites.locked {r' : Status × State} {ops : List StoreOp} (h : Rewrites cfg s r) (hpre : s.ops <+: r.2.ops)
    (hstore : r'.2.store = r.2.store) (hcache : r'.2.cache = r.2.cache) (hops : r'.2.ops = r.2.ops ++ ops)
    (hnone : .erase true ∉ ops) (hstatus : r'.1 = r.1 ∨ r'.1 = .failed) : Rewrites cfg s r' := by
  rw [Rewrites, newOps_trans hpre (hops ▸ List.prefix_append _ _), newOps_of_append hops, hstore, hcache]
  refine h.imp (fun hrest hmem => ?_) fun ⟨hmem, hne, hpart⟩ => ⟨List.mem_append_left _ hmem, ?_, hpart⟩
  · rcases List.mem_append.mp hmem with hmem | hmem
    · exact hrest hmem
    · exact hnone hmem
  · rcases hstatus with hstatus | hstatus
    · rw [hstatus]
      exact hne
    · rw [hstatus]
      decide

theorem unlock_ops : ∃ ops, (wearLevelingUnlock drv s).2.ops = s.ops ++ ops ∧ .erase true ∉ ops := by
  rw [wearLevelingUnlock]
  split
  · exact ⟨[], (List.append_nil _).symm, List.not_mem_nil⟩
  · refine ⟨[.unlock (drv.ok s.ops.length)], ?_, by simp⟩
    dsimp only
    split <;> rfl

theorem lock_ops : ∃ ops, (wearLevelingLock drv s).2.ops = s.ops ++ ops ∧ .erase true ∉ ops := by
  rw [wearLevelingLock]
  split
  · refine ⟨[.lock (drv.ok s.ops.length)], ?_, by simp⟩
    dsimp only
    split <;> rfl
  · exact ⟨[], (List.append_nil _).symm, List.not_mem_nil⟩

/-- A write that erases the store leaves a part of the new data in it, all of it if nothing fails. -/
theorem write_rewrites (s : State) (address : Nat) (value : List UInt8) :
    Rewrites cfg s (wearLevelingWrite cfg drv s address value) := by
  simp only [wearLevelingWrite]
  split
  · exact .inl (by simp [newOps])
  split
  · exact .inl (by simp [newOps])
  obtain ⟨ops, hunlock, hnone⟩ := unlock_ops drv (s := { s with cache := s.cache.writeBlock address value })
  generalize wearLevelingUnlock drv { s with cache := s.cache.writeBlock address value } = u at hunlock
  have hunlock : u.2.ops = s.ops ++ ops := hunlock
  have hpre : s.ops <+: u.2.ops := hunlock ▸ List.prefix_append _ _
  split
  · obtain ⟨ops', hlock, hnone'⟩ := lock_ops drv (s := u.2)
    refine .inl ?_
    rw [newOps_trans hpre (hlock ▸ List.prefix_append _ _), newOps_of_append hunlock, newOps_of_append hlock]
    simp [hnone, hnone']
  · have hraw : Rewrites cfg u.2 _ := writeAndConsolidate_rewrites drv u.2 address value
    have hops := ((writeAndConsolidate_causal cfg u.2 address value).runs drv).ops
    generalize writeAndConsolidate cfg drv u.2 address value = r at hraw hops
    have hr : Rewrites cfg s r := hraw.after hpre hops (newOps_of_append hunlock ▸ hnone)
    split
    · obtain ⟨ops', hlock, hnone'⟩ := lock_ops drv (s := r.2)
      obtain ⟨l₁, l₂, -, -⟩ := wearLevelingLock_frame drv r.2
      refine hr.locked (hpre.trans hops) l₁ l₂ hlock hnone' ?_
      dsimp only
      split
      · exact .inr rfl
      · exact .inl rfl
    · exact hr

end Rewrites

def firstBytes (c : Cache) (n : Nat) : Cache := fun x => if x < n then c x else 0

/-- What the next initialisation makes of a consolidation of `c` that was cut short. A part of the data is taken for all
of it only if its checksum is what an erased store holds. -/
inductive Rebuilt (cfg : Config) (c : Cache) : Cache → Prop where
  | whole : Rebuilt cfg c c
  | blank : Rebuilt cfg c fun _ => 0
  | part (n : Nat) (lt : n < cfg.logicalSize) (sum : checksumBytes cfg (firstBytes c n) = List.replicate 8 0) :
      Rebuilt cfg c (firstBytes c n)

def WriteErases (cfg : Config) (stack : Raw8) (s : State) (address : Nat) (value : List UInt8) : Prop :=
  .erase true ∈ newOps s (wearLevelingWrite cfg (.working stack) s address value).2

/-- What it finds after a write was cut short: whole entries and a part of the next, or what a consolidation left. -/
inductive Found (cfg : Config) (stack : Raw8) (s : State) (address : Nat) (value : List UInt8) : Cache → Prop where
  | torn (n j : Nat) (le : n ≤ value.length)
      (part : j = 0 ∨ (n < value.length ∧ j < (nextEntry cfg (address + n) (value.drop n)).words)) :
      Found cfg stack s address value (tornCache cfg s.cache address value n j)
  | rebuilt (erases : WriteErases cfg stack s address value) {image : Cache}
      (rebuilt : Rebuilt cfg (s.cache.writeBlock address value) image) : Found cfg stack s address value image

/-- Writes one after the other. None of them looks at the stack. -/
def writes (cfg : Config) (stack : Raw8) (s : State) (ws : List (Nat × List UInt8)) : State :=
  ws.foldl (fun s w => (wearLevelingWrite cfg (.working stack) s w.1 w.2).2) s

@[simp] theorem writes_cons (cfg : Config) (stack : Raw8) (s : State) (w : Nat × List UInt8)
    (ws : List (Nat × List UInt8)) : writes cfg stack s (w :: ws) =
      writes cfg stack (wearLevelingWrite cfg (.working stack) s w.1 w.2).2 ws := rfl

theorem writes_append (cfg : Config) (stack : Raw8) (s : State) (ws ws' : List (Nat × List UInt8)) :
    writes cfg stack s (ws ++ ws') = writes cfg stack (writes cfg stack s ws) ws' := List.foldl_append ..

/-- The store when power is lost after the first `k` operations of the writes. -/
def crashWrites (cfg : Config) (stack : Raw8) (s : State) (ws : List (Nat × List UInt8)) (k : Nat) : Mem UInt8 :=
  applyOps s.store ((newOps s (writes cfg stack s ws)).take k)

section Found

variable {cfg : Config} {c : Cache} {m : Mem UInt8} {s : State}

theorem PartOf.base (h : PartOf cfg c m) (hc : Fits cfg c) : Rebuilt cfg c (baseCache cfg m) := by
  obtain ⟨n, hn⟩ := h
  have hbyte : ∀ x, x < cfg.logicalSize → m x = firstBytes c n x := by
    intro x hx
    rw [hn, Mem.writeBlock_apply, if_pos (Nat.zero_le _), Nat.sub_zero, firstBytes]
    split
    · rw [List.getD_eq_getElem _ _ (by simp; omega), List.getElem_take, List.getElem_append_left (by simpa)]
      simp only [cacheBytes]
      rw [Mem.readBlock_getElem, Nat.zero_add]
    · rw [List.getD_eq_default _ _ (by simp; omega)]
  rw [baseCache]
  by_cases hlt : n < cfg.logicalSize
  · have hcache : consolidatedCache cfg m = firstBytes c n := by
      funext x
      rw [consolidatedCache]
      split
      · exact hbyte x ‹_›
      · rw [firstBytes, if_neg (by omega)]
    have hsum : m.readBlock cfg.logicalSize 8 = List.replicate 8 0 := by
      have hzero : m.readBlock cfg.logicalSize 8 = Mem.readBlock (fun _ => 0) 0 8 :=
        Mem.readBlock_congr fun i _ => by rw [hn, Mem.writeBlock_of_ge (by simp; omega)]
      exact hzero
    rw [hcache, hsum]
    split
    · exact .part n hlt (Eq.symm ‹_›)
    · exact .blank
  · have hcache : consolidatedCache cfg m = c := by
      funext x
      rw [consolidatedCache]
      split
      · rw [hbyte x ‹_›, firstBytes, if_pos (by omega)]
      · exact (hc x (Nat.le_of_not_lt ‹_›)).symm
    rw [hcache]
    split
    · exact .whole
    · exact .blank

theorem write_found (hmax : cfg.logicalSize ≤ maxLogicalSize) (h : Sound cfg s) (stack : Raw8) {address : Nat}
    {value : List UInt8} (hfit : address + value.length ≤ cfg.logicalSize) (k : Nat) :
    ∃ image w, LogInv cfg (crash cfg stack s (.write address value) k) w image ∧
      Found cfg stack s address value image := by
  rw [crash_eq_cut]
  have hcut := fun (hop : .erase true ∈ newOps s
      (wearLevelingWrite cfg (.cut stack (s.ops.length + k)) s address value).2) =>
    (wearLevelingWrite_causal cfg s address value).mem_of_cut (.working stack) (Driver.working_ok stack) k rfl hop
  have hcache := (write_consolidated cfg (.cut stack (s.ops.length + k)) s hfit).1
  have hfits := h.fits.writeBlock hfit
  have hparts : Rewrites cfg s _ := write_rewrites (.cut stack (s.ops.length + k)) s address value
  simp only [Call.exec]
  rcases write_cases (.cut stack (s.ops.length + k)) h.log address value with hr | ⟨-, hends⟩
  · rw [hr]
    exact ⟨_, _, h.log, by simpa [tornCache, Mem.writeBlock] using Found.torn 0 0 (Nat.zero_le _) (.inl rfl)⟩
  · generalize wearLevelingWrite cfg (.cut stack (s.ops.length + k)) s address value = r
      at hcut hcache hparts hends
    rw [← hcache] at hfits
    cases hends with
    | success _ c' log exact =>
      refine ⟨_, _, log, ?_⟩
      rw [exact hmax]
      simpa [tornCache] using Found.torn value.length 0 (Nat.le_refl _) (.inl rfl)
    | fresh _ fresh erased => exact ⟨_, _, fresh.log hfits, .rebuilt (hcut erased) (hcache ▸ .whole)⟩
    | broken _ broken =>
      obtain hnone | ⟨-, -, hpart⟩ := hparts
      · exact absurd broken.erased hnone
      · exact ⟨_, _, broken.log, .rebuilt (hcut broken.erased) (hcache ▸ hpart.base hfits)⟩
    | failed _ w c' log n j le part exact =>
      refine ⟨_, w, log, ?_⟩
      rw [exact hmax]
      exact .torn n j le (part.imp_right fun h => ⟨h.1, h.2.1⟩)

theorem writes_ops (stack : Raw8) (ws : List (Nat × List UInt8)) :
    ∀ s : State, s.ops <+: (writes cfg stack s ws).ops := by
  induction ws with
  | nil => exact fun s => List.prefix_refl _
  | cons x ws ih => exact fun s => ((wearLevelingWrite_causal cfg s x.1 x.2).runs (.working stack)).ops.trans (ih _)

theorem writes_found (hmax : cfg.logicalSize ≤ maxLogicalSize) (stack : Raw8) (ws : List (Nat × List UInt8)) :
    ∀ {s : State}, Sound cfg s → (∀ w ∈ ws, w.1 + w.2.length ≤ cfg.logicalSize) → ∀ k, ∃ done image w,
      LogInv cfg (crashWrites cfg stack s ws k) w image ∧
        ((done = ws ∧ image = (writes cfg stack s done).cache) ∨
          ∃ address value, done ++ [(address, value)] <+: ws ∧
            Found cfg stack (writes cfg stack s done) address value image) := by
  induction ws with
  | nil =>
    intro s h _ k
    exact ⟨[], s.cache, s.writeAddress, by simpa [crashWrites, writes, newOps, applyOps] using h.log, .inl ⟨rfl, rfl⟩⟩
  | cons x ws ih =>
    intro s h hfit k
    obtain ⟨hx, hrest⟩ := List.forall_mem_cons.mp hfit
    have hruns := (wearLevelingWrite_causal cfg s x.1 x.2).runs (.working stack)
    have hsound := write_sound hmax h stack hx
    have hops := @writes_ops cfg stack ws (wearLevelingWrite cfg (.working stack) s x.1 x.2).2
    rw [crashWrites, writes_cons, newOps_trans hruns.ops hops, List.take_append, applyOps_append]
    by_cases hk : k ≤ (newOps s (wearLevelingWrite cfg (.working stack) s x.1 x.2).2).length
    · obtain ⟨image, w, log, found⟩ := write_found hmax h stack hx k
      refine ⟨[], image, w, ?_, .inr ⟨x.1, x.2, List.prefix_append [x] ws, found⟩⟩
      rw [Nat.sub_eq_zero_of_le hk]
      exact log
    · obtain ⟨done, image, w, log, hdone⟩ := ih hsound hrest
        (k - (newOps s (wearLevelingWrite cfg (.working stack) s x.1 x.2).2).length)
      refine ⟨x :: done, image, w, ?_, ?_⟩
      · rw [List.take_of_length_le (Nat.le_of_not_le hk), ← hruns.store]
        exact log
      · refine hdone.imp (fun hdone => ⟨congrArg _ hdone.1, hdone.2⟩) ?_
        rintro ⟨address, value, hpre, found⟩
        exact ⟨address, value, List.cons_prefix_cons.mpr ⟨rfl, hpre⟩, found⟩

end Found

end WearLeveling
end VialQmk
