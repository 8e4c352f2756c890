import VialQmk.WearLeveling.Durable

/-!
# WearLeveling.Faults

Runs in which any unlock, erase, write or lock of the store may fail. `Damage` is what the failed
calls of a run left behind; without it, a write that reports success is durable
(`write_durable`). With it, the shortcut for unchanged values reports success for a value
that never reached the store (`retried_write_lost`).
-/

namespace VialQmk
namespace WearLeveling

open Lib

structure Damage where
  /-- A call failed with the write address off the end of the log: inside an entry it stored the first
  words of, or back at the base of a log it did not erase. -/
  torn : Prop
  /-- The bytes a failed call changed in the cache, or erased in the store. -/
  stale : Nat → Prop

namespace Damage

def none : Damage := ⟨False, fun _ => False⟩

def after (cfg : Config) (d : Damage) (call : Call) (s : State) (r : Status × State) : Damage where
  torn := ¬ Fresh cfg r.2 ∧ (d.torn ∨ (r.1 = .failed ∧ ¬ Aligned cfg r.2))
  stale x := ¬ Fresh cfg r.2 ∧
    if r.1 = .failed then d.stale x ∨ r.2.cache x ≠ s.cache x ∨ .erase true ∈ newOps s r.2
    else match call with
      | .init => False
      | .erase => d.stale x
      | .write address value => d.stale x ∧
          (s.cache.readBlock address value.length = value ∨
            x < address ∨ address + value.length ≤ x)

def along (cfg : Config) : Damage → State → List (Driver × Call) → Damage
  | d, _, [] => d
  | d, s, x :: calls =>
    let r := x.2.exec cfg x.1 s
    along cfg (d.after cfg x.2 s r) r.2 calls

end Damage

/-- As long as nothing is torn, the log ends at the write address, and replays to the cache except
for the stale bytes. -/
structure Tracks (cfg : Config) (s : State) (d : Damage) : Prop where
  fits : Fits cfg s.cache
  log : ¬ d.torn → ∃ c, LogInv cfg s.store s.writeAddress c ∧ ∀ x, ¬ d.stale x → c x = s.cache x

section Step

variable {cfg : Config} {drv : Driver} {s : State} {d : Damage} {call : Call} {r : Status × State}

/-- What has to be shown after a call: it may be taken that it did not leave the store fresh, that
nothing was torn before, and that a failure left the write address at the end of the log. -/
theorem Tracks.of_after (hfits : Fits cfg r.2.cache)
    (h : ¬ d.torn → (r.1 = .failed → Aligned cfg r.2) → ¬ Fresh cfg r.2 →
      ∃ c, LogInv cfg r.2.store r.2.writeAddress c ∧
        ∀ x, ¬ (d.after cfg call s r).stale x → c x = r.2.cache x) :
    Tracks cfg r.2 (d.after cfg call s r) := by
  refine ⟨hfits, fun htorn => ?_⟩
  by_cases hfresh : Fresh cfg r.2
  · exact ⟨r.2.cache, hfresh.log hfits, fun _ _ => rfl⟩
  · simp only [Damage.after, hfresh, not_false_eq_true, true_and, not_or, not_and, not_not] at htorn
    exact h htorn.1 htorn.2 hfresh

/-- A failed call that kept the store keeps the log, if the write address is still at its end. -/
theorem after_kept {w : Nat} {c : Cache} (hlog : LogInv cfg s.store w c)
    (hc : ∀ x, ¬ d.stale x → c x = s.cache x) (hstatus : r.1 = .failed) (hstore : r.2.store = s.store)
    (haligned : r.1 = .failed → Aligned cfg r.2) (hfresh : ¬ Fresh cfg r.2) :
    ∃ c, LogInv cfg r.2.store r.2.writeAddress c ∧
      ∀ x, ¬ (d.after cfg call s r).stale x → c x = r.2.cache x := by
  obtain ⟨c', hc'⟩ := haligned hstatus
  have hsame := hc'
  rw [hstore] at hsame
  obtain ⟨-, rfl⟩ := hlog.end_unique hsame
  refine ⟨c, hc', fun x hx => ?_⟩
  simp only [Damage.after, hfresh, hstatus, not_false_eq_true, true_and, if_true, not_or,
    not_not] at hx
  rw [hx.2.1]
  exact hc x hx.1

theorem after_broken (hstatus : r.1 = .failed) (hbroken : Broken cfg s r.2)
    (hfresh : ¬ Fresh cfg r.2) :
    ∃ c, LogInv cfg r.2.store r.2.writeAddress c ∧
      ∀ x, ¬ (d.after cfg call s r).stale x → c x = r.2.cache x := by
  refine ⟨_, hbroken.log, fun x hx => ?_⟩
  simp only [Damage.after, hfresh, hstatus, not_false_eq_true, true_and, if_true, not_or] at hx
  exact absurd hbroken.erased hx.2.2

theorem init_tracks (hread : ∀ a, drv.readOk a = true)
    (h : ¬ d.torn → ∃ w c, LogInv cfg s.store w c ∧ ∀ x, ¬ d.stale x → c x = s.cache x) :
    Tracks cfg (wearLevelingInit cfg drv s).2 (d.after cfg .init s (wearLevelingInit cfg drv s)) := by
  refine .of_after (init_fits cfg drv s) fun htorn haligned hfresh => ?_
  obtain ⟨w, c, hlog, hc⟩ := h htorn
  have hspec := init_spec hread hlog
  generalize wearLevelingInit cfg drv s = r at haligned hfresh hspec
  cases hspec with
  | success status store writeAddress cache =>
    refine ⟨c, ?_, fun x _ => by rw [cache]⟩
    rw [store, writeAddress]
    exact hlog
  | consolidated _ fresh => exact absurd fresh hfresh
  | broken status broken => exact after_broken status broken hfresh
  | failed status store => exact after_kept hlog hc status store haligned hfresh

theorem erase_tracks (h : Tracks cfg s d) :
    Tracks cfg (wearLevelingErase cfg drv s).2 (d.after cfg .erase s (wearLevelingErase cfg drv s)) := by
  have hspec := erase_spec cfg drv s
  generalize wearLevelingErase cfg drv s = r at hspec
  have hfits : Fits cfg r.2.cache := by
    cases hspec with
    | erased _ cache | failed _ _ cache => rw [cache]; exact fun _ _ => rfl
    | locked _ _ cache => rw [cache]; exact h.fits
  refine .of_after hfits fun htorn haligned hfresh => ?_
  obtain ⟨c, hlog, hc⟩ := h.log htorn
  cases hspec with
  | erased fresh => exact absurd fresh hfresh
  | locked status store | failed status store => exact after_kept hlog hc status store haligned hfresh

theorem write_tracks (hmax : cfg.logicalSize ≤ maxLogicalSize) (h : Tracks cfg s d) (address : Nat)
    (value : List UInt8) :
    Tracks cfg (wearLevelingWrite cfg drv s address value).2
      (d.after cfg (.write address value) s (wearLevelingWrite cfg drv s address value)) := by
  by_cases hfit : address + value.length > cfg.logicalSize
  · have hr : wearLevelingWrite cfg drv s address value = (.failed, s) := by
      rw [wearLevelingWrite, if_pos hfit]
    rw [hr]
    refine .of_after h.fits fun htorn haligned hfresh => ?_
    obtain ⟨c, hlog, hc⟩ := h.log htorn
    exact after_kept hlog hc rfl rfl haligned hfresh
  by_cases hskip : s.cache.readBlock address value.length = value
  · have hr : wearLevelingWrite cfg drv s address value = (.success, s) := by
      rw [wearLevelingWrite, if_neg hfit, if_pos hskip]
    rw [hr]
    refine .of_after h.fits fun htorn _ hfresh => ?_
    obtain ⟨c, hlog, hc⟩ := h.log htorn
    refine ⟨c, hlog, fun x hx => hc x ?_⟩
    simpa [Damage.after, hfresh, hskip] using hx
  have hfit := Nat.le_of_not_lt hfit
  have hcache := (write_consolidated cfg drv s hfit).1
  have hends := fun c hlog => (write_spec cfg drv (c := c) hlog hfit hskip).2
  generalize wearLevelingWrite cfg drv s address value = r at hcache hends
  refine .of_after (hcache ▸ h.fits.writeBlock hfit) fun htorn haligned hfresh => ?_
  obtain ⟨c, hlog, hc⟩ := h.log htorn
  cases hends c hlog with
  | success status c' log exact =>
    refine ⟨c', log, fun x hx => ?_⟩
    rw [exact hmax, hcache]
    simp only [Damage.after, hfresh, status, hskip, not_false_eq_true, true_and, false_or, not_and,
      reduceCtorEq, if_false] at hx
    by_cases hin : address ≤ x ∧ x < address + value.length
    · obtain ⟨k, rfl⟩ := Nat.exists_eq_add_of_le hin.1
      rw [Mem.writeBlock_of_mem (by omega), Mem.writeBlock_of_mem (by omega)]
    · rw [Mem.writeBlock_apply, Mem.writeBlock_apply]
      have hx' := hc x fun hs => hx hs (by omega)
      rw [hx']
  | fresh _ fresh => exact absurd fresh hfresh
  | broken status broken => exact after_broken status broken hfresh
  | failed status w c' log n j le part exact =>
    obtain ⟨c'', hc''⟩ := haligned status
    obtain ⟨hw, rfl⟩ := log.end_unique hc''
    have hj : j = 0 := part.resolve_right fun h => h.2.2 hw.symm
    refine ⟨c', hc'', fun x hx => ?_⟩
    simp only [Damage.after, hfresh, status, not_false_eq_true, true_and, if_true, not_or,
      not_not] at hx
    have hcx := hc x hx.1
    rw [exact hmax, tornCache, if_pos hj]
    rcases writeBlock_take c address value n x with he | he
    · rw [he, hx.2.1, hcx]
    · rw [he, hcache, Mem.writeBlock_apply, Mem.writeBlock_apply, hcx]

end Step

theorem exec_tracks {cfg : Config} (hmax : cfg.logicalSize ≤ maxLogicalSize) {drv : Driver}
    (hread : ∀ a, drv.readOk a = true) {s : State} {d : Damage} (h : Tracks cfg s d) (call : Call) :
    Tracks cfg (call.exec cfg drv s).2 (d.after cfg call s (call.exec cfg drv s)) := by
  cases call with
  | init =>
    refine init_tracks hread fun htorn => ?_
    obtain ⟨c, hlog, hc⟩ := h.log htorn
    exact ⟨_, c, hlog, hc⟩
  | erase => exact erase_tracks h
  | write address value => exact write_tracks hmax h address value

theorem run_tracks {cfg : Config} (hmax : cfg.logicalSize ≤ maxLogicalSize)
    (calls : List (Driver × Call)) :
    ∀ {s : State} {d : Damage}, Tracks cfg s d → (∀ x ∈ calls, ∀ a, x.1.readOk a = true) →
      Tracks cfg (run cfg s calls) (d.along cfg s calls) := by
  induction calls with
  | nil => exact fun h _ => h
  | cons x calls ih =>
    intro s d h hread
    obtain ⟨hx, hrest⟩ := List.forall_mem_cons.mp hread
    exact ih (exec_tracks hmax hx h x.2) hrest

/-- What has to be known of the calls before for a write that reports success to be durable: nothing
is torn, and if the write is skipped because the cache holds the value, none of its bytes is stale. -/
def Undamaged (d : Damage) (s : State) (address : Nat) (value : List UInt8) : Prop :=
  ¬ d.torn ∧ (s.cache.readBlock address value.length = value →
    ∀ x, address ≤ x → x < address + value.length → ¬ d.stale x)

theorem Tracks.durable {cfg : Config} (hmax : cfg.logicalSize ≤ maxLogicalSize) {s : State}
    {d : Damage} (h : Tracks cfg s d) (drv : Driver) {address : Nat} {value : List UInt8}
    (hfit : address + value.length ≤ cfg.logicalSize)
    (hstatus : (wearLevelingWrite cfg drv s address value).1 = .success)
    (hd : Undamaged d s address value) (stack : Raw8) :
    restartRead cfg stack (wearLevelingWrite cfg drv s address value).2 address value.length =
      (.success, value) := by
  obtain ⟨c, hlog, hc⟩ := h.log hd.1
  by_cases hskip : s.cache.readBlock address value.length = value
  · have hr : wearLevelingWrite cfg drv s address value = (.success, s) := by
      rw [wearLevelingWrite, if_neg (Nat.not_lt.mpr hfit), if_pos hskip]
    have hsame : c.readBlock address value.length = s.cache.readBlock address value.length :=
      Mem.readBlock_congr fun i hi => hc _ (hd.2 hskip _ (by omega) (by omega))
    rw [hr, restartRead_of_log stack hlog hlog.fits hfit, hsame, hskip]
  · have hends := (write_spec cfg drv hlog hfit hskip).2
    generalize wearLevelingWrite cfg drv s address value = r at hstatus hends
    cases hends with
    | success _ c' log exact =>
      rw [restartRead_of_log stack log log.fits hfit, exact hmax, Mem.readBlock_writeBlock]
    | fresh status => exact absurd hstatus status
    | broken status | failed status => rw [hstatus] at status; cases status

/-- **Success means durable.** In any run on a store whose unlocks, erases, writes and locks may fail,
a write that consolidates is read back after a restart, and so is a write that reports success if the
calls before left it `Undamaged`. -/
theorem write_durable (cfg : Config) (hmax : cfg.logicalSize ≤ maxLogicalSize) (drv₀ : Driver)
    (calls : List (Driver × Call)) (hread : ∀ x ∈ (drv₀, .init) :: calls, ∀ a, x.1.readOk a = true)
    (drv : Driver) (address : Nat) (value : List UInt8) (stack : Raw8) :
    let s := run cfg (.powerUp fun _ => 0) ((drv₀, .init) :: calls)
    let d := Damage.none.along cfg (.powerUp fun _ => 0) ((drv₀, .init) :: calls)
    let r := wearLevelingWrite cfg drv s address value
    r.1 = .consolidated ∨ (r.1 = .success ∧ Undamaged d s address value) →
      restartRead cfg stack r.2 address value.length = (.success, value) := by
  obtain ⟨hread₀, hreads⟩ := List.forall_mem_cons.mp hread
  have hboot := init_tracks (d := .none) (s := .powerUp fun _ => 0) hread₀
    fun _ => ⟨_, _, erased_logInv cfg, fun _ _ => rfl⟩
  have htracks := run_tracks hmax calls hboot hreads
  intro s d r hr
  change Tracks cfg s d at htracks
  have hfit : address + value.length ≤ cfg.logicalSize := by
    by_contra hlt
    have hfail : r = (.failed, s) := if_pos (Nat.lt_of_not_le hlt)
    rw [hfail] at hr
    rcases hr with h | ⟨h, -⟩ <;> cases h
  rcases hr with hstatus | ⟨hstatus, hd⟩
  · obtain ⟨hcache, hfresh⟩ := write_consolidated cfg drv s hfit
    have hlog := (hfresh hstatus).log (hcache ▸ htracks.fits.writeBlock hfit)
    rw [restartRead_of_log stack hlog hlog.fits hfit, hcache, Mem.readBlock_writeBlock]
  · exact htracks.durable hmax drv hfit hstatus hd stack

def Driver.firstFails (stack : Raw8) : Driver := ⟨true, fun _ => true, fun n => n ≠ 0, stack⟩

/-- The failed write of one byte is made again, after a write of another byte. -/
theorem write_durable_tiny :
    let s := run .tiny (.powerUp fun _ => 0)
      [(.working fun _ => 0, .init), (.firstFails fun _ => 0, .write 0 [5])]
    restartRead .tiny (fun _ => 0) (wearLevelingWrite .tiny (.working fun _ => 0) s 1 [6]).2 1 1 =
      (.success, [6]) := by
  refine write_durable .tiny (by decide) (.working fun _ => 0)
    [(.firstFails fun _ => 0, .write 0 [5])] ?_ (.working fun _ => 0) 1 [6] (fun _ => 0) ?_
  · simp [Driver.working, Driver.firstFails]
  · refine .inr ⟨by decide +kernel, ?_, fun hskip => absurd hskip (by decide +kernel)⟩
    rintro ⟨-, ⟨-, h | ⟨h, -⟩⟩ | ⟨-, h⟩⟩
    · exact h
    · exact absurd h (by decide +kernel)
    · exact h ⟨_, erased_logInv .tiny⟩

/-- A write whose unlock fails has changed the cache. When it is made again, it is skipped as
unchanged, and reports success. -/
theorem retried_write_lost :
    let s := run .tiny (.powerUp fun _ => 0)
      [(.working fun _ => 0, .init), (.firstFails fun _ => 0, .write 0 [5])]
    let r := wearLevelingWrite .tiny (.working fun _ => 0) s 0 [5]
    r.1 = .success ∧ restartRead .tiny (fun _ => 0) r.2 0 1 = (.success, [0]) := by
  decide +kernel

end WearLeveling
end VialQmk
