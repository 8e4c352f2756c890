import VialQmk.WearLeveling.Causal

/-!
# WearLeveling.PowerLoss

Power lost in the middle of a call: the store keeps what the first operations of the call did to it
(`crash`), and the next thing to run is `wear_leveling_init`.

* `init_idempotent`: whatever was interrupted, a second initialisation finds what the first one found.
* `torn_write`: what is read after a write was cut short.
-/

namespace VialQmk
namespace WearLeveling

open Lib

/-- The store when power is lost after the first `k` operations of a call. -/
def crash (cfg : Config) (stack : Raw8) (s : State) (call : Call) (k : Nat) : Mem UInt8 :=
  applyOps s.store ((newOps s (call.exec cfg (.working stack) s).2).take k)

/-- A store that works for its first `n` operations, and then no more. -/
def Driver.cut (stack : Raw8) (n : Nat) : Driver :=
  { Driver.working stack with ok := fun i => decide (i < n) }

theorem crash_eq_cut (cfg : Config) (stack : Raw8) (s : State) (call : Call) (k : Nat) :
    crash cfg stack s call k = (call.exec cfg (.cut stack (s.ops.length + k)) s).2.store :=
  (exec_causal cfg s call).cut_store (.working stack) (fun _ => rfl) k

/-- The states after an initialisation and calls, on a working store that held `m`. -/
def started (cfg : Config) (m : Mem UInt8) (stack : Raw8) (calls : List (Raw8 × Call)) : State :=
  runWorking cfg (wearLevelingInit cfg (.working stack) (.powerUp m)).2 calls

/-- The stores that come from an erased one through calls, each time until power is lost in the middle
of a call. -/
inductive Stored (cfg : Config) : Mem UInt8 → Prop where
  | erased : Stored cfg fun _ => 0
  | duringInit {m : Mem UInt8} (h : Stored cfg m) (stack : Raw8) (k : Nat) :
      Stored cfg (crash cfg stack (.powerUp m) .init k)
  | duringCall {m : Mem UInt8} (h : Stored cfg m) (stack₀ : Raw8) (calls : List (Raw8 × Call))
      (stack : Raw8) (call : Call) (k : Nat) :
      Stored cfg (crash cfg stack (started cfg m stack₀ calls) call k)

def Intact (cfg : Config) (m : Mem UInt8) : Prop := ∃ w c, LogInv cfg m w c

/-- The log ends at the write address. What it replays to is left open: past the 19 bits of the
address field it is not the cache. -/
structure Kept (cfg : Config) (s : State) : Prop where
  fits : Fits cfg s.cache
  aligned : Aligned cfg s

section Intact

variable {cfg : Config}

theorem Fresh.kept {s : State} (h : Fresh cfg s) (hfits : Fits cfg s.cache) : Kept cfg s :=
  ⟨hfits, s.cache, h.log hfits⟩

variable {s : State}

theorem exec_fits (drv : Driver) (h : Fits cfg s.cache) (call : Call) : Fits cfg (call.exec cfg drv s).2.cache := by
  cases call with
  | init => exact init_fits cfg drv s
  | erase =>
    simp only [Call.exec]
    cases erase_spec cfg drv s with
    | erased _ cache | failed _ _ cache => rw [cache]; exact fun _ _ => rfl
    | locked _ _ cache => rw [cache]; exact h
  | write address value =>
    simp only [Call.exec]
    by_cases hfit : address + value.length ≤ cfg.logicalSize
    · rw [(write_consolidated cfg drv s hfit).1]
      exact h.writeBlock hfit
    · rw [wearLevelingWrite, if_pos (Nat.lt_of_not_le hfit)]
      exact h

theorem write_cases (drv : Driver) {c : Cache} (h : LogInv cfg s.store s.writeAddress c) (address : Nat)
    (value : List UInt8) : (wearLevelingWrite cfg drv s address value).2 = s ∨
      (address + value.length ≤ cfg.logicalSize ∧
        WriteEnds cfg s c address value (wearLevelingWrite cfg drv s address value)) := by
  by_cases hfit : address + value.length > cfg.logicalSize
  · left
    rw [wearLevelingWrite, if_pos hfit]
  by_cases hskip : s.cache.readBlock address value.length = value
  · left
    rw [wearLevelingWrite, if_neg hfit, if_pos hskip]
  · have hfit := Nat.le_of_not_lt hfit
    exact .inr ⟨hfit, (write_spec cfg drv h hfit hskip).2⟩

theorem init_intact {drv : Driver} (hread : ∀ a, drv.readOk a = true) (h : Intact cfg s.store) :
    Intact cfg (wearLevelingInit cfg drv s).2.store := by
  obtain ⟨w, c, hlog⟩ := h
  cases init_spec hread hlog with
  | success _ store | failed _ store => exact ⟨w, c, by rw [store]; exact hlog⟩
  | consolidated _ fresh => exact ⟨_, _, fresh.log (init_fits cfg drv s)⟩
  | broken _ broken => exact ⟨_, _, broken.log⟩

/-- Whatever fails in one call, the store stays intact: a call appends to the log only as long as it
succeeds. -/
theorem exec_intact {drv : Driver} (hread : ∀ a, drv.readOk a = true) (h : Kept cfg s) (call : Call) :
    Intact cfg (call.exec cfg drv s).2.store := by
  obtain ⟨c, hlog⟩ := h.aligned
  have hfits := exec_fits drv h.fits call
  cases call with
  | init => exact init_intact hread ⟨_, c, hlog⟩
  | erase =>
    simp only [Call.exec] at hfits ⊢
    cases erase_spec cfg drv s with
    | erased fresh => exact ⟨_, _, fresh.log hfits⟩
    | locked _ store | failed _ store => exact ⟨_, c, by rw [store]; exact hlog⟩
  | write address value =>
    simp only [Call.exec] at hfits ⊢
    rcases write_cases drv hlog address value with hr | ⟨-, hends⟩
    · rw [hr]
      exact ⟨_, c, hlog⟩
    · cases hends with
      | success _ c' log => exact ⟨_, c', log⟩
      | fresh _ fresh => exact ⟨_, _, fresh.log hfits⟩
      | broken _ broken => exact ⟨_, _, broken.log⟩
      | failed _ w c' log => exact ⟨w, c', log⟩

theorem init_kept (h : Intact cfg s.store) (stack : Raw8) :
    Kept cfg (wearLevelingInit cfg (.working stack) s).2 := by
  obtain ⟨w, c, hlog⟩ := h
  obtain ⟨-, -, hsound⟩ := init_working stack hlog hlog.fits
  exact ⟨hsound.fits, _, hsound.log⟩

theorem exec_kept {s : State} (h : Kept cfg s) (stack : Raw8) (call : Call) :
    Kept cfg (call.exec cfg (.working stack) s).2 := by
  obtain ⟨c, hlog⟩ := h.aligned
  have hfits := exec_fits (.working stack) h.fits call
  cases call with
  | init => exact init_kept ⟨_, c, hlog⟩ stack
  | erase =>
    have hstatus : (wearLevelingErase cfg (.working stack) s).1 = .success :=
      erase_of_ok (Driver.working_ok stack) s
    simp only [Call.exec] at hfits ⊢
    cases erase_spec cfg (.working stack) s with
    | erased fresh => exact fresh.kept hfits
    | locked status | failed status => rw [hstatus] at status; cases status
  | write address value =>
    simp only [Call.exec] at hfits ⊢
    rcases write_cases (.working stack) hlog address value with hr | ⟨hfit, hends⟩
    · rw [hr]
      exact h
    · have hstatus := write_of_ok (Driver.working_ok stack) s hfit
      cases hends with
      | success _ c' log => exact ⟨hfits, c', log⟩
      | fresh _ fresh => exact fresh.kept hfits
      | broken status | failed status => exact absurd status hstatus

theorem started_kept {m : Mem UInt8} (h : Intact cfg m) (stack₀ : Raw8)
    (calls : List (Raw8 × Call)) : Kept cfg (started cfg m stack₀ calls) := by
  have hrun : ∀ (calls : List (Raw8 × Call)) (s : State), Kept cfg s →
      Kept cfg (runWorking cfg s calls) := by
    intro calls
    induction calls with
    | nil => exact fun _ h => h
    | cons x calls ih => exact fun s h => ih _ (exec_kept h x.1 x.2)
  exact hrun calls _ (init_kept h stack₀)

theorem Stored.intact {m : Mem UInt8} (h : Stored cfg m) : Intact cfg m := by
  induction h with
  | erased => exact ⟨_, _, erased_logInv cfg⟩
  | @duringInit m _ stack k ih =>
    rw [crash_eq_cut]
    exact init_intact (fun _ => rfl) ih
  | @duringCall m _ stack₀ calls stack call k ih =>
    rw [crash_eq_cut]
    exact exec_intact (fun _ => rfl) (started_kept ih stack₀ calls) call

theorem started_sound (hmax : cfg.logicalSize ≤ maxLogicalSize) {m : Mem UInt8} (h : Intact cfg m)
    (stack₀ : Raw8) (calls : List (Raw8 × Call)) : Sound cfg (started cfg m stack₀ calls) := by
  have hrun : ∀ (calls : List (Raw8 × Call)) (s : State), Sound cfg s →
      Sound cfg (runWorking cfg s calls) := by
    intro calls
    induction calls with
    | nil => exact fun _ h => h
    | cons x calls ih =>
      intro s hs
      refine ih _ ?_
      obtain ⟨stack, call⟩ := x
      by_cases hrange : call.InRange cfg
      · exact (exec_sound hmax hs stack hrange).1
      · cases call with
        | init | erase => exact absurd trivial hrange
        | write address value =>
          simp only [Call.exec, wearLevelingWrite, if_pos (Nat.lt_of_not_le hrange)]
          exact hs
  obtain ⟨w, c, hlog⟩ := h
  exact hrun calls _ (init_working stack₀ hlog hlog.fits).2.2

end Intact

/-- **Initialisation is idempotent after any crash.** -/
theorem init_idempotent (cfg : Config) {m : Mem UInt8} (h : Stored cfg m) (stack stack' : Raw8) :
    let s := (wearLevelingInit cfg (.working stack) (.powerUp m)).2
    (wearLevelingInit cfg (.working stack') s).2.cache = s.cache := by
  obtain ⟨w, c, hlog⟩ := h.intact
  obtain ⟨-, hcache, hsound⟩ := init_working (s := .powerUp m) stack hlog hlog.fits
  exact (init_working stack' hsound.log hsound.fits).2.1

/-- A power loss in the middle of a consolidation, and after it one in the middle of an entry. -/
theorem init_idempotent_tiny :
    let m := crash .tiny (fun _ => 0)
      (started .tiny (crash .tiny (fun _ => 0)
        (started .tiny (fun _ => 0) (fun _ => 0) [(fun _ => 0, .write 0 [1, 1, 1])])
        (.write 3 [1, 1]) 4) (fun _ => 0) [])
      (.write 0 [9, 9, 9, 9, 9]) 2
    let s := (wearLevelingInit .tiny (.working fun _ => 0) (.powerUp m)).2
    (wearLevelingInit .tiny (.working fun _ => 1) s).2.cache = s.cache :=
  init_idempotent .tiny (.duringCall (.duringCall .erased _ _ _ _ _) _ _ _ _ _) (fun _ => 0)
    fun _ => 1

section Torn

variable {cfg : Config} {c : Cache} {address n j : Nat} {value : List UInt8}

theorem nextEntry_words_eight (hws : cfg.writeSize = 8) (address : Nat) (p : List UInt8) :
    (nextEntry cfg address p).words = 1 := by
  simp [nextEntry, multibyteEntry, Config.multibyteWords, hws]

theorem writeBlock_take_range (c : Cache) (address : Nat) (value : List UInt8) (n x : Nat) :
    c.writeBlock address (value.take n) x = c x ∨
      (address ≤ x ∧ x < address + value.length ∧
        c.writeBlock address (value.take n) x = c.writeBlock address value x) := by
  by_cases hlt : x < address
  · exact .inl (Mem.writeBlock_of_lt _ _ _ hlt)
  by_cases hge : address + value.length ≤ x
  · exact .inl (Mem.writeBlock_of_ge (by simp; omega))
  · exact (writeBlock_take c address value n x).imp_right fun h => ⟨by omega, by omega, h⟩

/-- What playback writes for an entry with its head complete: bytes of the entry, then zeros. -/
theorem replayOf_head {p : List UInt8} (hp : p ≠ []) (ha : address < maxLogicalSize)
    (hj : j < (nextEntry cfg address p).words) (hhead : 2 < j * cfg.writeSize) :
    ∃ k l, l + k ≤ p.length ∧ replayOf cfg address p j = (address, p.take k ++ List.replicate l 0) := by
  obtain ⟨-, hle⟩ := nextEntry_consumed cfg address hp
  simp only [replayOf, if_neg (Nat.not_le.mpr hj), if_pos hhead, Nat.mod_eq_of_lt ha]
  generalize (nextEntry cfg address p).consumed = n at hle
  by_cases hk : j * cfg.writeSize - 3 ≤ n
  · refine ⟨j * cfg.writeSize - 3, n - (j * cfg.writeSize - 3), by omega, ?_⟩
    rw [List.take_take, Nat.min_eq_left hk]
  · refine ⟨n, 0, by omega, ?_⟩
    rw [List.take_take, Nat.min_eq_right (by omega), Nat.sub_eq_zero_of_le (by omega)]

/-- With the head of the torn entry complete, every byte is the old one, the new one or zero, and
only bytes of the write change. -/
theorem tornCache_bytes (hvalue : address + value.length ≤ maxLogicalSize)
    (hpart : j = 0 ∨ (n < value.length ∧ j < (nextEntry cfg (address + n) (value.drop n)).words))
    (hhead : j = 0 ∨ 2 < j * cfg.writeSize) (x : Nat) :
    tornCache cfg c address value n j x = c x ∨
      (address ≤ x ∧ x < address + value.length ∧
        (tornCache cfg c address value n j x = c.writeBlock address value x ∨
          tornCache cfg c address value n j x = 0)) := by
  by_cases hj : j = 0
  · rw [tornCache, if_pos hj]
    exact (writeBlock_take_range c address value n x).imp_right fun h => ⟨h.1, h.2.1, .inl h.2.2⟩
  · obtain ⟨hn, hw⟩ := hpart.resolve_left hj
    have hdrop : value.drop n ≠ [] := by
      rw [Ne, List.drop_eq_nil_iff]
      omega
    obtain ⟨k, l, hkl, hreplay⟩ := replayOf_head hdrop (by omega) hw (hhead.resolve_left hj)
    rw [List.length_drop] at hkl
    -- the torn entry is a write of the value's next bytes, and of zeros behind them
    have htorn : tornCache cfg c address value n j =
        (c.writeBlock address (value.take (n + k))).writeBlock (address + (n + k))
          (List.replicate l 0) := by
      simp only [tornCache, if_neg hj, hreplay]
      rw [Mem.writeBlock_append, writeBlock_take_add c address (Nat.le_of_lt hn),
        List.length_take_of_le (by simp; omega), Nat.add_assoc]
    by_cases hzero : address + (n + k) ≤ x ∧ x < address + (n + k) + l
    · refine .inr ⟨by omega, by omega, .inr ?_⟩
      obtain ⟨i, rfl⟩ := Nat.exists_eq_add_of_le hzero.1
      rw [htorn, Mem.writeBlock_of_mem (by simp; omega), List.getElem_replicate]
    · have hx : tornCache cfg c address value n j x = c.writeBlock address (value.take (n + k)) x := by
        rw [htorn]
        by_cases hlt : x < address + (n + k)
        · exact Mem.writeBlock_of_lt _ _ _ hlt
        · exact Mem.writeBlock_of_ge (by simp; omega)
      rw [hx]
      exact (writeBlock_take_range c address value (n + k) x).imp_right
        fun h => ⟨h.1, h.2.1, .inl h.2.2⟩

/-- A two-byte store cut after the first word of a multi-byte entry: the address loses its low byte,
and the data is zero. -/
theorem tornCache_first_word (hws : cfg.writeSize = 2)
    (hvalue : address + n < maxLogicalSize)
    (hw : 1 < (nextEntry cfg (address + n) (value.drop n)).words) :
    tornCache cfg c address value n 1 =
      (c.writeBlock address (value.take n)).writeBlock (address + n - (address + n) % 256)
        (List.replicate (nextEntry cfg (address + n) (value.drop n)).consumed 0) := by
  simp [tornCache, replayOf, hws, Nat.mod_eq_of_lt hvalue, Nat.not_le.mpr hw]

theorem write_cut {s : State} (h : Sound cfg s) (hmax : cfg.logicalSize ≤ maxLogicalSize)
    (stack : Raw8) (address : Nat) (value : List UInt8)
    (hcalm : ∀ ok, .erase ok ∉ newOps s (wearLevelingWrite cfg (.working stack) s address value).2)
    (k : Nat) :
    ∃ n j, n ≤ value.length ∧
      (j = 0 ∨ (n < value.length ∧ j < (nextEntry cfg (address + n) (value.drop n)).words)) ∧
      ∃ w, LogInv cfg (crash cfg stack s (.write address value) k) w
        (tornCache cfg s.cache address value n j) := by
  rw [crash_eq_cut]
  have hcut := fun (hop : .erase true ∈ newOps s
      (wearLevelingWrite cfg (.cut stack (s.ops.length + k)) s address value).2) =>
    (wearLevelingWrite_causal cfg s address value).mem_of_cut (.working stack) (Driver.working_ok stack) k rfl hop
  simp only [Call.exec]
  rcases write_cases (.cut stack (s.ops.length + k)) h.log address value with hr | ⟨-, hends⟩
  · rw [hr]
    exact ⟨0, 0, Nat.zero_le _, .inl rfl, _, by simpa [tornCache, Mem.writeBlock] using h.log⟩
  · cases hends with
    | success _ c' log exact =>
      have hc : c' = tornCache cfg s.cache address value value.length 0 := by
        rw [exact hmax, tornCache, if_pos rfl, List.take_length]
      exact ⟨value.length, 0, Nat.le_refl _, .inl rfl, _, hc ▸ log⟩
    | fresh _ _ erased => exact absurd (hcut erased) (hcalm true)
    | broken _ broken => exact absurd (hcut broken.erased) (hcalm true)
    | failed _ w c' log n j le part exact =>
      refine ⟨n, j, le, part.imp_right fun h => ⟨h.1, h.2.1⟩, w, ?_⟩
      rwa [exact hmax] at log

end Torn

/-- **Torn writes.** A write that does not consolidate is cut short by a power loss after any number
of its operations. The next initialisation finds its first `n` bytes, and of the entry after them only
what its first `j` words make of it.

Cut between entries, as it always is with eight-byte words, that is the old or the new value of every
byte. With the head of the entry complete, missing bytes are zero. With half of the head missing, the
data of the whole entry is zero and lies at the address with its low byte cleared. The next write is
read back. -/
theorem torn_write (cfg : Config) (hmax : cfg.logicalSize ≤ maxLogicalSize) {m : Mem UInt8}
    (h : Stored cfg m) (stack₀ : Raw8) (calls : List (Raw8 × Call)) (stack : Raw8) (address : Nat)
    (value : List UInt8) (hfit : address + value.length ≤ cfg.logicalSize)
    (hcalm : ∀ ok, .erase ok ∉ newOps (started cfg m stack₀ calls)
      (wearLevelingWrite cfg (.working stack) (started cfg m stack₀ calls) address value).2)
    (k : Nat) (stack' : Raw8) :
    let s := started cfg m stack₀ calls
    let r := wearLevelingInit cfg (.working stack')
      (.powerUp (crash cfg stack s (.write address value) k))
    let new := s.cache.writeBlock address value
    (∃ n j, n ≤ value.length ∧
      (j = 0 ∨ (n < value.length ∧ j < (nextEntry cfg (address + n) (value.drop n)).words)) ∧
      (cfg.writeSize = 8 → j = 0) ∧
      (j = 0 → ∀ x, r.2.cache x = s.cache x ∨
        (address ≤ x ∧ x < address + value.length ∧ r.2.cache x = new x)) ∧
      (2 < j * cfg.writeSize → ∀ x, r.2.cache x = s.cache x ∨
        (address ≤ x ∧ x < address + value.length ∧ (r.2.cache x = new x ∨ r.2.cache x = 0))) ∧
      (j * cfg.writeSize = 2 → r.2.cache =
        (s.cache.writeBlock address (value.take n)).writeBlock (address + n - (address + n) % 256)
          (List.replicate (nextEntry cfg (address + n) (value.drop n)).consumed 0))) ∧
    ∀ stack'' address' value', address' + value'.length ≤ cfg.logicalSize →
      let r' := wearLevelingWrite cfg (.working stack'') r.2 address' value'
      r'.1 ≠ .failed ∧ wearLevelingRead cfg r'.2 address' value'.length = (.success, value') ∧
        ∀ stack''', restartRead cfg stack''' r'.2 address' value'.length = (.success, value') := by
  intro s r new
  have hsound := started_sound hmax h.intact stack₀ calls
  obtain ⟨n, j, hn, hpart, w, hlog⟩ := write_cut hsound hmax stack address value hcalm k
  obtain ⟨-, hcache, hr⟩ := init_working (s := .powerUp (crash cfg stack s (.write address value) k))
    stack' hlog hlog.fits
  change r.2.cache = tornCache cfg s.cache address value n j at hcache
  constructor
  · have hvalue : address + value.length ≤ maxLogicalSize := Nat.le_trans hfit hmax
    refine ⟨n, j, hn, hpart, fun hws => ?_, fun hj x => ?_, fun hhead x => ?_, fun hfirst => ?_⟩
    · rcases hpart with hj | ⟨-, hj⟩
      · exact hj
      · rw [nextEntry_words_eight hws] at hj
        omega
    · rw [hcache, tornCache, if_pos hj]
      exact writeBlock_take_range s.cache address value n x
    · rw [hcache]
      exact tornCache_bytes hvalue hpart (.inr hhead) x
    · have hj : j = 1 ∧ cfg.writeSize = 2 := by
        rcases cfg.writeSize_cases with hws | hws | hws <;> rw [hws] at hfirst ⊢ <;> omega
      obtain ⟨rfl, hws⟩ := hj
      obtain ⟨hn', hw⟩ := hpart.resolve_left Nat.one_ne_zero
      rw [hcache]
      exact tornCache_first_word hws (by omega) hw
  · intro stack'' address' value' hfit' r'
    have hsound' := write_sound hmax hr stack'' hfit'
    have hnew := (write_consolidated cfg (.working stack'') r.2 hfit').1
    refine ⟨write_of_ok (Driver.working_ok stack'') r.2 hfit', ?_, fun stack''' => ?_⟩
    · rw [wearLevelingRead, if_neg (Nat.not_lt.mpr hfit'), hnew, Mem.readBlock_writeBlock]
    · rw [restartRead_of_log stack''' hsound'.log hsound'.log.fits hfit', hnew,
        Mem.readBlock_writeBlock]

def Config.four : Config where
  writeSize := 4
  logicalSize := 8
  backingSize := 64
  writeSize_cases := .inr (.inl rfl)
  logical_pos := Config.tiny.logical_pos
  two_logical_le := by decide
  logical_mod := rfl
  backing_mod := rfl
  backing_lt := by decide

theorem torn_write_four :
    let s := started .four (fun _ => 0) (fun _ => 0) [(fun _ => 0, .write 0 [1, 1])]
    let r := wearLevelingInit .four (.working fun _ => 0)
      (.powerUp (crash .four (fun _ => 0) s (.write 0 [2, 2]) 2))
    let r' := wearLevelingWrite .four (.working fun _ => 0) r.2 3 [5]
    wearLevelingRead .four r'.2 3 1 = (.success, [5]) :=
  ((torn_write .four (by decide) .erased (fun _ => 0) [(fun _ => 0, .write 0 [1, 1])] (fun _ => 0) 0
    [2, 2] (by decide) (by decide +kernel) 2 (fun _ => 0)).2 (fun _ => 0) 3 [5] (by decide)).2.1

/-- The second byte of a two-byte write, cut after the first word, is neither old nor new. -/
theorem torn_write_zero :
    let s := started .four (fun _ => 0) (fun _ => 0) [(fun _ => 0, .write 0 [1, 1])]
    let r := wearLevelingInit .four (.working fun _ => 0)
      (.powerUp (crash .four (fun _ => 0) s (.write 0 [2, 2]) 2))
    (∀ ok, .erase ok ∉ newOps s (wearLevelingWrite .four (.working fun _ => 0) s 0 [2, 2]).2) ∧
      s.cache 1 = 1 ∧ s.cache.writeBlock 0 [2, 2] 1 = 2 ∧ r.2.cache 1 = 0 := by
  decide +kernel

end WearLeveling
end VialQmk
