import VialQmk.WearLeveling.Interface

/-!
# WearLeveling.Durable

Runs of calls on a store on which nothing fails. The cache is the plain byte array of the calls, and
a restart rebuilds it from the store (`wearLeveling_durable`), as long as the addresses fit in the
19 bits of a log entry.
-/

namespace VialQmk
namespace WearLeveling

open Lib

inductive Call where
  | init
  | erase
  | write (address : Nat) (value : List UInt8)
  deriving DecidableEq, Repr

namespace Call

def exec (cfg : Config) (drv : Driver) (s : State) : Call → Status × State
  | .init => wearLevelingInit cfg drv s
  | .erase => wearLevelingErase cfg drv s
  | .write address value => wearLevelingWrite cfg drv s address value

def InRange (cfg : Config) : Call → Prop
  | .init | .erase => True
  | .write address value => address + value.length ≤ cfg.logicalSize

def applyTo (c : Cache) : Call → Cache
  | .init => c
  | .erase => fun _ => 0
  | .write address value => c.writeBlock address value

end Call

def State.powerUp (m : Mem UInt8) : State := ⟨fun _ => 0, 0, false, m, []⟩

/-- A run of calls, each with the behaviour of the store during it. -/
def run (cfg : Config) (s : State) (calls : List (Driver × Call)) : State :=
  calls.foldl (fun s x => (x.2.exec cfg x.1 s).2) s

def runWorking (cfg : Config) (s : State) (calls : List (Raw8 × Call)) : State :=
  run cfg s (calls.map fun x => (Driver.working x.1, x.2))

@[simp] theorem runWorking_nil (cfg : Config) (s : State) : runWorking cfg s [] = s := rfl

@[simp] theorem runWorking_cons (cfg : Config) (s : State) (x : Raw8 × Call)
    (calls : List (Raw8 × Call)) :
    runWorking cfg s (x :: calls) = runWorking cfg (x.2.exec cfg (.working x.1) s).2 calls := rfl

section Sound

variable {cfg : Config} {s : State}

theorem init_erased (cfg : Config) (stack : Raw8) :
    Sound cfg (wearLevelingInit cfg (.working stack) (.powerUp fun _ => 0)).2 ∧
      (wearLevelingInit cfg (.working stack) (.powerUp fun _ => 0)).2.cache = fun _ => 0 := by
  obtain ⟨-, hcache, hsound⟩ := init_working (s := .powerUp fun _ => 0) stack (erased_logInv cfg)
    fun _ _ => rfl
  exact ⟨hsound, hcache⟩

theorem write_sound (hmax : cfg.logicalSize ≤ maxLogicalSize) (h : Sound cfg s) (stack : Raw8)
    {address : Nat} {value : List UInt8} (hfit : address + value.length ≤ cfg.logicalSize) :
    Sound cfg (wearLevelingWrite cfg (.working stack) s address value).2 := by
  have hstatus := write_of_ok (Driver.working_ok stack) s hfit
  have hcache := (write_consolidated cfg (.working stack) s hfit).1
  have hfits : Fits cfg (wearLevelingWrite cfg (.working stack) s address value).2.cache := by
    rw [hcache]
    exact h.fits.writeBlock hfit
  by_cases hskip : s.cache.readBlock address value.length = value
  · rw [wearLevelingWrite, if_neg (Nat.not_lt.mpr hfit), if_pos hskip]
    exact h
  · have hends := (write_spec cfg (.working stack) h.log hfit hskip).2
    generalize wearLevelingWrite cfg (.working stack) s address value = r at hstatus hcache hfits hends
    cases hends with
    | success status c' log exact =>
      rw [exact hmax] at log
      exact ⟨hcache ▸ log, hfits⟩
    | fresh status fresh => exact ⟨fresh.log hfits, hfits⟩
    | broken status | failed status => exact absurd status hstatus

theorem exec_sound (hmax : cfg.logicalSize ≤ maxLogicalSize) (h : Sound cfg s) (stack : Raw8)
    {call : Call} (hrange : call.InRange cfg) :
    Sound cfg (call.exec cfg (.working stack) s).2 ∧
      (call.exec cfg (.working stack) s).2.cache = call.applyTo s.cache := by
  cases call with
  | init =>
    obtain ⟨-, hcache, hsound⟩ := init_working stack h.log h.fits
    exact ⟨hsound, hcache⟩
  | erase =>
    have hstatus : (wearLevelingErase cfg (.working stack) s).1 = .success :=
      erase_of_ok (Driver.working_ok stack) s
    simp only [Call.exec, Call.applyTo]
    cases erase_spec cfg (.working stack) s with
    | erased fresh cache => exact ⟨⟨fresh.log (cache ▸ fun _ _ => rfl), cache ▸ fun _ _ => rfl⟩, cache⟩
    | locked status | failed status => rw [hstatus] at status; cases status
  | write address value =>
    exact ⟨write_sound hmax h stack hrange, (write_consolidated cfg (.working stack) s hrange).1⟩

theorem runWorking_sound (hmax : cfg.logicalSize ≤ maxLogicalSize) (calls : List (Raw8 × Call)) :
    ∀ {s : State}, Sound cfg s → (∀ x ∈ calls, x.2.InRange cfg) →
      Sound cfg (runWorking cfg s calls) ∧
        (runWorking cfg s calls).cache = calls.foldl (fun c x => x.2.applyTo c) s.cache := by
  induction calls with
  | nil => exact fun h _ => ⟨h, rfl⟩
  | cons x calls ih =>
    intro s h hrange
    obtain ⟨hx, hrest⟩ := List.forall_mem_cons.mp hrange
    obtain ⟨hsound, hcache⟩ := exec_sound hmax h x.1 hx
    obtain ⟨i₁, i₂⟩ := ih hsound hrest
    rw [hcache] at i₂
    exact ⟨i₁, i₂⟩

end Sound

/-- **Durability.** After any run of calls on an erased store the cache is the plain byte array of
the calls, and a restart rebuilds exactly that array. -/
theorem wearLeveling_durable (cfg : Config) (hmax : cfg.logicalSize ≤ maxLogicalSize) (stack : Raw8)
    (calls : List (Raw8 × Call)) (hrange : ∀ x ∈ calls, x.2.InRange cfg) :
    let s := runWorking cfg (wearLevelingInit cfg (.working stack) (.powerUp fun _ => 0)).2 calls
    s.cache = calls.foldl (fun c x => x.2.applyTo c) (fun _ => 0) ∧
      ∀ stack', (wearLevelingInit cfg (.working stack') s).1 ≠ .failed ∧
        (wearLevelingInit cfg (.working stack') s).2.cache = s.cache := by
  obtain ⟨hboot, hzero⟩ := init_erased cfg stack
  obtain ⟨hsound, hcache⟩ := runWorking_sound hmax calls hboot hrange
  rw [hzero] at hcache
  refine ⟨hcache, fun stack' => ?_⟩
  obtain ⟨hinit, hrestart, -⟩ := init_working stack' hsound.log hsound.fits
  exact ⟨hinit, hrestart⟩

/-- Two-byte words, eight logical bytes, and room for four words of log. -/
def Config.tiny : Config where
  writeSize := 2
  logicalSize := 8
  backingSize := 24
  writeSize_cases := .inl rfl
  logical_pos := by decide
  two_logical_le := by decide
  logical_mod := rfl
  backing_mod := rfl
  backing_lt := by decide

/-- Three writes, the last of them consolidating, and an erase in between. -/
def tinyRun : List (Raw8 × Call) :=
  [(fun _ => 7, .write 0 [1, 0, 9, 8]), (fun _ => 7, .erase), (fun _ => 7, .write 2 [1, 2, 3, 4, 5]),
    (fun _ => 7, .init), (fun _ => 7, .write 1 [6, 6])]

theorem wearLeveling_durable_tiny :
    (runWorking .tiny (wearLevelingInit .tiny (.working fun _ => 7) (.powerUp fun _ => 0)).2
      tinyRun).cache = tinyRun.foldl (fun c x => x.2.applyTo c) (fun _ => 0) :=
  (wearLeveling_durable .tiny (by decide) (fun _ => 7) tinyRun (by
    simp only [tinyRun, List.forall_mem_cons, Call.InRange]
    exact ⟨by decide, trivial, by decide, trivial, by decide, nofun⟩)).1

/-- The smallest logical size past the address field, with eight-byte words. -/
def Config.oversized : Config where
  writeSize := 8
  logicalSize := 524296
  backingSize := 1048592
  writeSize_cases := .inr (.inr rfl)
  logical_pos := by decide
  two_logical_le := by decide
  logical_mod := rfl
  backing_mod := rfl
  backing_lt := by decide

/-- One byte, written to the first address that does not fit in 19 bits. -/
def oversizedRun : List (Raw8 × Call) := [(fun _ => 0, .write 524288 [1])]

theorem oversized_store :
    (runWorking .oversized
      (wearLevelingInit .oversized (.working fun _ => 0) (.powerUp fun _ => 0)).2 oversizedRun).store =
      Mem.writeBlock (fun _ => 0) 524304 [8, 0, 0, 1, 0, 0, 0, 0] := by
  have hinit := init_of_log (s := .powerUp fun _ => 0) rfl
    (Driver.working_readOk fun _ => 0) (erased_logInv .oversized)
  have hroom : ¬ Config.oversized.logBase ≥ Config.oversized.backingSize := by decide
  simp only [wearLevelingConsolidateIfNeeded, if_neg hroom] at hinit
  rw [hinit]
  rfl

theorem oversized_log :
    LogInv .oversized (Mem.writeBlock (fun _ => 0) 524304 [8, 0, 0, 1, 0, 0, 0, 0]) 524312
      (Mem.writeBlock (fun _ => 0) 0 [1]) := by
  have herased := erased_logInv .oversized
  constructor
  · intro drv hread
    refine (herased.plays_append [8, 0, 0, 1, 0, 0, 0, 0] drv hread).snoc (reader_step_of_next ?_ ?_)
    · decide
    · exact playStep_multibyte hread (by decide) (by decide) (by decide) (by decide)
  · intro _ x hx
    exact Mem.writeBlock_of_ge hx

theorem oversized_cache (s : State) : (runWorking .oversized s oversizedRun).cache 524288 = 1 := by
  have hrange : Call.InRange .oversized (.write 524288 [1]) := by
    simp only [Call.InRange]
    decide
  have hwritten : ∀ c : Cache, c.writeBlock 524288 [1] 524288 = 1 := fun c => by
    simp [Mem.writeBlock]
  rw [oversizedRun, runWorking_cons, runWorking_nil, Call.exec,
    (write_consolidated .oversized (.working fun _ => 0) s hrange).1]
  exact hwritten _

theorem oversized_restart {s : State}
    (hstore : s.store = Mem.writeBlock (fun _ => 0) 524304 [8, 0, 0, 1, 0, 0, 0, 0])
    (hcache : s.cache 524288 = 1) :
    (wearLevelingInit .oversized (.working fun _ => 0) s).2.cache ≠ s.cache := by
  have hfits : Fits .oversized (Mem.writeBlock (fun _ => 0) 0 [1]) := fun x hx =>
    Mem.writeBlock_of_ge (Nat.le_trans (by decide) hx)
  have hlog := oversized_log
  rw [← hstore] at hlog
  intro heq
  have hlost := congrFun heq 524288
  rw [(init_working (fun _ => 0) hlog hfits).2.1, hcache, Mem.writeBlock_of_ge (by simp)] at hlost
  exact absurd hlost (by decide)

/-- The restart puts the byte at address 0. -/
theorem oversized_lost :
    (∀ x ∈ oversizedRun, x.2.InRange .oversized) ∧
      let s := runWorking .oversized
        (wearLevelingInit .oversized (.working fun _ => 0) (.powerUp fun _ => 0)).2 oversizedRun
      (wearLevelingInit .oversized (.working fun _ => 0) s).2.cache ≠ s.cache := by
  have hrange : Call.InRange .oversized (.write 524288 [1]) := by
    simp only [Call.InRange]
    decide
  exact ⟨by simpa [oversizedRun] using hrange, oversized_restart oversized_store (oversized_cache _)⟩

end WearLeveling
end VialQmk
