import VialQmk.WearLeveling.Decode
import VialQmk.WearLeveling.Steps

/-!
# WearLeveling.Log

The invariant of the store. `LogInv cfg m w c`: the log of the store `m` runs from its base to `w`,
nothing lies behind it, and replaying it over the consolidated data gives the cache `c`.

* `LogInv.entry`: an entry appended at the end, whole or torn, keeps the invariant for what playback
  makes of it.
* `consolidated_logInv`: a consolidated store has an empty log that replays to the cache.
* `writeRaw_spec`: what `wear_leveling_write_raw` does to the invariant, whatever fails.
-/

namespace VialQmk
namespace WearLeveling

open Lib

/-- The cache `wear_leveling_read_consolidated` starts the playback from. -/
def baseCache (cfg : Config) (m : Mem UInt8) : Cache :=
  if m.readBlock cfg.logicalSize 8 = checksumBytes cfg (consolidatedCache cfg m) then
    consolidatedCache cfg m
  else fun _ => 0

structure LogInv (cfg : Config) (m : Mem UInt8) (w : Nat) (c : Cache) : Prop where
  plays : ∀ drv : Driver, (∀ a, drv.readOk a = true) →
    (reader cfg drv).Plays m cfg.logBase (baseCache cfg m) w c
  /-- What lies past the end of the store is not part of it. -/
  blank : w < cfg.backingSize → ∀ x, w ≤ x → m x = 0

def Aligned (cfg : Config) (s : State) : Prop := ∃ c, LogInv cfg s.store s.writeAddress c

theorem baseCache_congr {cfg : Config} {m m' : Mem UInt8} (h : ∀ x, x < cfg.logBase → m' x = m x) :
    baseCache cfg m' = baseCache cfg m := by
  have hcache : consolidatedCache cfg m' = consolidatedCache cfg m := by
    funext x
    simp only [consolidatedCache]
    split
    · exact h x (by simp only [Config.logBase]; omega)
    · rfl
  have hsum : m'.readBlock cfg.logicalSize 8 = m.readBlock cfg.logicalSize 8 :=
    Mem.readBlock_congr fun i hi => h _ (by simp only [Config.logBase]; omega)
  simp only [baseCache, hcache, hsum]

section Entries

variable {cfg : Config} {m : Mem UInt8} {w address j : Nat} {p : List UInt8} {c c' : Cache}

theorem LogInv.base_le (h : LogInv cfg m w c) : cfg.logBase ≤ w :=
  (h.plays (.working fun _ => 0) fun _ => rfl).le

theorem LogInv.end_le {w' : Nat} (h : LogInv cfg m w c) (h' : LogInv cfg m w' c') : w' ≤ w := by
  by_contra hlt
  have hread : ∀ x, (Driver.working fun _ => 0).readOk x = true := fun _ => rfl
  cases (h.plays _ hread).split (h'.plays _ hread) (Nat.le_of_not_le hlt) with
  | nil => exact hlt (Nat.le_refl _)
  | cons hs _ =>
    obtain ⟨hw, hstep⟩ := playStep_of_reader_step hs
    rw [playStep_blank (hread w) (h.blank hw)] at hstep
    cases hstep

theorem LogInv.end_unique {w' : Nat} (h : LogInv cfg m w c) (h' : LogInv cfg m w' c') :
    w = w' ∧ c = c' := by
  have hw : w = w' := Nat.le_antisymm (h'.end_le h) (h.end_le h')
  subst hw
  exact ⟨rfl, (h.plays (.working fun _ => 0) fun _ => rfl).unique (h'.plays _ fun _ => rfl)⟩

theorem LogInv.plays_append (h : LogInv cfg m w c) (bytes : List UInt8) (drv : Driver)
    (hread : ∀ a, drv.readOk a = true) :
    (reader cfg drv).Plays (m.writeBlock w bytes) cfg.logBase
      (baseCache cfg (m.writeBlock w bytes)) w c := by
  have hbase := h.base_le
  rw [baseCache_congr fun x hx => Mem.writeBlock_of_lt _ _ _ (Nat.lt_of_lt_of_le hx hbase)]
  exact (h.plays drv hread).congr fun x _ hx => Mem.writeBlock_of_lt _ _ _ hx

theorem LogInv.image (h : LogInv cfg m w c) (hw : w < cfg.backingSize) (hp : p ≠ [])
    (hj : j ≤ (nextEntry cfg address p).words) :
    Image cfg (nextEntry cfg address p) j
      (m.writeBlock w ((nextEntry cfg address p).raw8.take (j * cfg.writeSize))) w := by
  obtain ⟨hlen, hwords⟩ := nextEntry_raw8 cfg address hp
  have hmul := Nat.mul_le_mul_right cfg.writeSize hj
  intro i _
  rw [Mem.writeBlock_apply, if_pos (by omega), Nat.add_sub_cancel_left, h.blank hw (w + i) (by omega)]
  by_cases hi : i < j * cfg.writeSize
  · rw [if_pos hi, List.getD_eq_getElem _ _ (by simp; omega), List.getD_eq_getElem _ _ (by omega),
      List.getElem_take]
  · rw [if_neg hi, List.getD_eq_default _ _ (by simp; omega)]

theorem LogInv.entry (h : LogInv cfg m w c) (hw : w < cfg.backingSize) (hp : p ≠ [])
    (hfit : address + p.length ≤ cfg.logicalSize) (hj : 0 < j)
    (hj' : j ≤ (nextEntry cfg address p).words) :
    LogInv cfg (m.writeBlock w ((nextEntry cfg address p).raw8.take (j * cfg.writeSize)))
      (w + (nextEntry cfg address p).words * cfg.writeSize)
      (c.writeBlock (replayOf cfg address p j).1 (replayOf cfg address p j).2) := by
  constructor
  · intro drv hread
    refine (h.plays_append _ drv hread).snoc (reader_step_of_next hw ?_)
    exact playStep_nextEntry hread hp hfit hj hj' (h.image hw hp hj')
  · intro _ x hx
    have hmul := Nat.mul_le_mul_right cfg.writeSize hj'
    rw [Mem.writeBlock_of_ge (by simp; omega), h.blank hw x (by omega)]

theorem LogInv.past_end (h : LogInv cfg m w c) (hw : cfg.backingSize ≤ w) (bytes : List UInt8) :
    LogInv cfg (m.writeBlock w bytes) w c :=
  ⟨h.plays_append bytes, fun hlt => absurd hw (Nat.not_le.mpr hlt)⟩

end Entries

section Consolidated

variable {cfg : Config} {c : Cache}

def Fits (cfg : Config) (c : Cache) : Prop := ∀ x, cfg.logicalSize ≤ x → c x = 0

theorem Fits.writeBlock (h : Fits cfg c) {address : Nat} {p : List UInt8}
    (hfit : address + p.length ≤ cfg.logicalSize) : Fits cfg (c.writeBlock address p) := by
  intro x hx
  rw [Mem.writeBlock_of_ge (by omega), h x hx]

theorem consolidatedCache_fits (m : Mem UInt8) : Fits cfg (consolidatedCache cfg m) := by
  intro x hx
  rw [consolidatedCache, if_neg (by omega)]

theorem baseCache_fits (m : Mem UInt8) : Fits cfg (baseCache cfg m) := by
  unfold baseCache
  split
  · exact consolidatedCache_fits m
  · exact fun _ _ => rfl

variable {m : Mem UInt8}

theorem playMultibyte_fits {drv : Driver} {a b : Nat} {log : Raw8} {d : Cache} (hc : Fits cfg c)
    (h : playMultibyte cfg drv m a log c = .next b d) : Fits cfg d := by
  obtain ⟨r₁, r₂, r₃, r₄, -, hfit, -, -, -, -, rfl⟩ := playMultibyte_next_iff.mp h
  exact hc.writeBlock (by simpa using hfit)

theorem playStep_fits {drv : Driver} {a b : Nat} {d : Cache} (hc : Fits cfg c)
    (h : playStep cfg drv m a c = .next b d) : Fits cfg d := by
  obtain ⟨v, -, -, ⟨-, hplay⟩ | ⟨-, -, x, data, hfit, rfl⟩⟩ := playStep_next h
  · exact playMultibyte_fits hc hplay
  · exact hc.writeBlock hfit

theorem playLoop_fits (drv : Driver) (m : Mem UInt8) (fuel : Nat) :
    ∀ (a : Nat) {c : Cache}, Fits cfg c → Fits cfg (playLoop cfg drv m fuel a c).2.2 := by
  induction fuel with
  | zero => exact fun _ _ h => h
  | succ fuel ih =>
    intro a c h
    rw [playLoop]
    split
    · cases hs : playStep cfg drv m a c with
      | stop => exact h
      | next b d => exact ih _ (playStep_fits h hs)
    · exact h

theorem plays_fits {drv : Driver} {a b : Nat} {d : Cache} (h : (reader cfg drv).Plays m a c b d) (hc : Fits cfg c) :
    Fits cfg d := by
  induction h with
  | nil => exact hc
  | cons hs _ ih => exact ih (playStep_fits hc (playStep_of_reader_step hs).2)

theorem LogInv.fits {w : Nat} (h : LogInv cfg m w c) : Fits cfg c :=
  plays_fits (h.plays (.working fun _ => 0) fun _ => rfl) (baseCache_fits m)

theorem baseCache_consolidatedStore (h : Fits cfg c) : baseCache cfg (consolidatedStore cfg c) = c := by
  have hcache : consolidatedCache cfg (consolidatedStore cfg c) = c := by
    funext x
    simp only [consolidatedCache]
    split
    · rename_i hx
      rw [consolidatedStore, Mem.writeBlock_of_lt _ _ _ hx, Mem.writeBlock_apply, if_pos (by omega),
        List.getD_eq_getElem _ _ (by simpa using hx)]
      simp only [cacheBytes, Nat.sub_zero]
      rw [Mem.readBlock_getElem, Nat.zero_add]
    · rename_i hx
      exact (h x (Nat.le_of_not_lt hx)).symm
  have hsum : (consolidatedStore cfg c).readBlock cfg.logicalSize 8 = checksumBytes cfg c :=
    Mem.readBlock_writeBlock _ _ (checksumBytes cfg c)
  rw [baseCache, hcache, if_pos hsum]

theorem consolidatedStore_blank (c : Cache) {x : Nat} (hx : cfg.logBase ≤ x) :
    consolidatedStore cfg c x = 0 := by
  simp only [Config.logBase] at hx
  rw [consolidatedStore, Mem.writeBlock_of_ge (by rw [checksumBytes_length]; omega),
    Mem.writeBlock_of_ge (by simp; omega)]

theorem consolidated_logInv (h : Fits cfg c) :
    LogInv cfg (consolidatedStore cfg c) cfg.logBase c := by
  constructor
  · intro drv _
    rw [baseCache_consolidatedStore h]
    exact .nil _ _
  · exact fun _ x hx => consolidatedStore_blank c hx

theorem erased_logInv (cfg : Config) : LogInv cfg (fun _ => 0) cfg.logBase (fun _ => 0) := by
  have hbase : baseCache cfg (fun _ => 0) = fun _ => 0 := by
    funext x
    unfold baseCache
    split
    · simp [consolidatedCache]
    · rfl
  constructor
  · intro drv _
    rw [hbase]
    exact .nil _ _
  · exact fun _ _ _ => rfl

end Consolidated

/-- What a write of `p` cut short replays to: its first `n` bytes in whole entries, and the next entry
with its first `j` words. -/
def tornCache (cfg : Config) (c : Cache) (address : Nat) (p : List UInt8) (n j : Nat) : Cache :=
  let c' := c.writeBlock address (p.take n)
  if j = 0 then c'
  else
    c'.writeBlock (replayOf cfg (address + n) (p.drop n) j).1
      (replayOf cfg (address + n) (p.drop n) j).2

/-- How `wear_leveling_write_raw` ends when the log of `s` replays to `c`. -/
inductive Writes (cfg : Config) (s : State) (c : Cache) (address : Nat) (p : List UInt8)
    (r : Status × State) : Prop where
  | success (status : r.1 = .success) (c' : Cache) (log : LogInv cfg r.2.store r.2.writeAddress c')
      (exact : cfg.logicalSize ≤ maxLogicalSize → c' = c.writeBlock address p)
      (room : p = [] ∨ r.2.writeAddress < cfg.backingSize)
  | consolidated (status : r.1 = .consolidated) (consolidated : Consolidated cfg s r.2)
  | broken (status : r.1 = .failed) (broken : Broken cfg s r.2)
  | failed (status : r.1 = .failed) (w : Nat) (c' : Cache) (log : LogInv cfg r.2.store w c')
      (n j : Nat) (le : n ≤ p.length)
      (part : j = 0 ∨ (n < p.length ∧ j < (nextEntry cfg (address + n) (p.drop n)).words ∧
        r.2.writeAddress ≠ w))
      (exact : cfg.logicalSize ≤ maxLogicalSize → c' = tornCache cfg c address p n j)
      (within : w < cfg.backingSize → r.2.writeAddress ≤ w) (cut : Cut s r.2)

section WriteRaw

variable {cfg : Config} {drv : Driver} {s : State} {c : Cache} {address : Nat} {p : List UInt8}
  {r : Status × State}

theorem appendEntry_failed (h : LogInv cfg s.store s.writeAddress c) (hp : p ≠ [])
    (hfit : address + p.length ≤ cfg.logicalSize)
    (hr : Appends cfg s ((nextEntry cfg address p).storedWords cfg) r) (hstatus : r.1 ≠ .success) :
    Writes cfg s c address p r := by
  have hlen : ((nextEntry cfg address p).storedWords cfg).length = (nextEntry cfg address p).words := by
    simp [LogEntry.storedWords]
  cases hr with
  | success status => exact absurd status hstatus
  | consolidated status consolidated => exact .consolidated status consolidated
  | broken status broken => exact .broken status broken
  | failed status k le store writeAddress cut =>
    rw [hlen] at le
    rw [storedWords_flatten le] at store
    by_cases hw : s.writeAddress < cfg.backingSize
    · by_cases hk : k = 0
      · subst hk
        refine .failed status s.writeAddress c ?_ 0 0 (Nat.zero_le _) (.inl rfl) (fun _ => ?_)
          (fun _ => by simp [writeAddress]) cut
        · rw [store]
          simpa [Mem.writeBlock] using h
        · simp [tornCache, Mem.writeBlock]
      · have hlog := h.entry hw hp hfit (by omega) le
        rw [← store] at hlog
        by_cases hlast : k = (nextEntry cfg address p).words
        · subst hlast
          obtain ⟨-, hcle⟩ := nextEntry_consumed cfg address hp
          refine .failed status _ _ hlog (nextEntry cfg address p).consumed 0 hcle (.inl rfl) ?_
            (fun _ => Nat.le_of_eq writeAddress) cut
          intro hmax
          have hpos := List.length_pos_iff.mpr hp
          rw [replayOf_full cfg (by omega), tornCache, if_pos rfl]
        · have hmul := Nat.mul_lt_mul_of_pos_right (Nat.lt_of_le_of_ne le hlast) (writeSize_pos cfg)
          refine .failed status _ _ hlog 0 k (Nat.zero_le _) (.inr ⟨?_, ?_, ?_⟩) (fun _ => ?_)
            (fun _ => by omega) cut
          · exact List.length_pos_iff.mpr hp
          · exact Nat.lt_of_le_of_ne le hlast
          · rw [writeAddress]
            omega
          · simp [tornCache, hk, Mem.writeBlock]
    · refine .failed status s.writeAddress c ?_ 0 0 (Nat.zero_le _) (.inl rfl) (fun _ => ?_)
        (fun hlt => absurd hlt hw) cut
      · rw [store]
        exact h.past_end (Nat.le_of_not_lt hw) _
      · simp [tornCache, Mem.writeBlock]

theorem appendEntry_success (h : LogInv cfg s.store s.writeAddress c) (hp : p ≠ [])
    (hfit : address + p.length ≤ cfg.logicalSize)
    (hr : Appends cfg s ((nextEntry cfg address p).storedWords cfg) r) (hstatus : r.1 = .success) :
    r.2.writeAddress < cfg.backingSize ∧ ∃ c', LogInv cfg r.2.store r.2.writeAddress c' ∧
      (cfg.logicalSize ≤ maxLogicalSize →
        c' = c.writeBlock address (p.take (nextEntry cfg address p).consumed)) := by
  have hwpos := nextEntry_words_pos cfg address p
  have hlen : ((nextEntry cfg address p).storedWords cfg).length = (nextEntry cfg address p).words := by
    simp [LogEntry.storedWords]
  cases hr with
  | success status store writeAddress room =>
    have hroom : r.2.writeAddress < cfg.backingSize := by
      refine room.resolve_left fun hnil => ?_
      rw [hnil] at hlen
      simp at hlen
      omega
    rw [hlen] at writeAddress
    have hflat : (((nextEntry cfg address p).storedWords cfg).take
        (nextEntry cfg address p).words).flatten = _ := storedWords_flatten (Nat.le_refl _)
    rw [← hlen, List.take_length, hlen] at hflat
    have hlog := h.entry (by omega) hp hfit hwpos (Nat.le_refl _)
    rw [← hflat, ← store, ← writeAddress] at hlog
    refine ⟨hroom, _, hlog, fun hmax => ?_⟩
    have hpos := List.length_pos_iff.mpr hp
    rw [replayOf_full cfg (by omega)]
  | consolidated status | broken status | failed status => rw [status] at hstatus; cases hstatus

theorem writeBlock_take_add (c : Cache) (address : Nat) {p : List UInt8} {n : Nat}
    (hn : n ≤ p.length) (k : Nat) :
    (c.writeBlock address (p.take n)).writeBlock (address + n) ((p.drop n).take k) =
      c.writeBlock address (p.take (n + k)) := by
  rw [List.take_add, Mem.writeBlock_append, List.length_take_of_le hn]

theorem writeBlock_take_drop (c : Cache) (address : Nat) {p : List UInt8} {n : Nat}
    (hn : n ≤ p.length) :
    (c.writeBlock address (p.take n)).writeBlock (address + n) (p.drop n) =
      c.writeBlock address p := by
  have h := writeBlock_take_add c address hn (p.length - n)
  rwa [Nat.add_sub_cancel' hn, List.take_length, ← List.length_drop, List.take_length] at h

theorem writeBlock_take (c : Cache) (address : Nat) (p : List UInt8) (n x : Nat) :
    c.writeBlock address (p.take n) x = c x ∨
      c.writeBlock address (p.take n) x = c.writeBlock address p x := by
  rw [Mem.writeBlock_apply, Mem.writeBlock_apply]
  by_cases hx : address ≤ x
  · simp only [if_pos hx]
    by_cases hn : x - address < (p.take n).length
    · right
      rw [List.getD_eq_getElem _ _ hn, List.getElem_take]
      exact (List.getD_eq_getElem _ _ _).symm
    · exact .inl (List.getD_eq_default _ _ (by omega))
  · exact .inl (if_neg hx)

theorem Writes.shift {s' : State} {c' : Cache} {n : Nat} (hcache : s'.cache = s.cache)
    (hops : s.ops <+: s'.ops) (hn : n ≤ p.length)
    (hc' : cfg.logicalSize ≤ maxLogicalSize → c' = c.writeBlock address (p.take n))
    (hroom : r.1 = .success → p.drop n = [] → r.2.writeAddress < cfg.backingSize)
    (h : Writes cfg s' c' (address + n) (p.drop n) r) : Writes cfg s c address p r := by
  cases h with
  | success status d log exact room =>
    refine .success status d log (fun hmax => ?_) (.inr (room.elim (hroom status) id))
    rw [exact hmax, hc' hmax, writeBlock_take_drop c address hn]
  | consolidated status consolidated => exact .consolidated status (consolidated.mono hops hcache)
  | broken status broken => exact .broken status (broken.mono hops)
  | failed status w d log k j le part exact within cut =>
    rw [List.length_drop] at le part
    rw [List.drop_drop, Nat.add_assoc] at part
    refine .failed status w d log (n + k) j (by omega) (part.imp_right fun h => ?_) (fun hmax => ?_)
      within (cut.mono hops (List.prefix_refl _))
    · exact ⟨by omega, h.2⟩
    · rw [exact hmax, hc' hmax]
      simp only [tornCache, writeBlock_take_add c address hn, List.drop_drop, Nat.add_assoc]

theorem writeRaw_spec (cfg : Config) (drv : Driver) (fuel : Nat) :
    ∀ (s : State) (c : Cache) (address : Nat) (p : List UInt8), p.length ≤ fuel →
      LogInv cfg s.store s.writeAddress c → address + p.length ≤ cfg.logicalSize →
      let r := wearLevelingWriteRaw cfg drv fuel s address p
      r.2.cache = s.cache ∧ s.ops <+: r.2.ops ∧ Writes cfg s c address p r := by
  induction fuel with
  | zero =>
    intro s c address p hfuel h _
    have hp : p = [] := List.length_eq_zero_iff.mp (Nat.le_zero.mp hfuel)
    subst hp
    exact ⟨rfl, List.prefix_refl _, .success rfl c h (fun _ => rfl) (.inl rfl)⟩
  | succ fuel ih =>
    intro s c address p hfuel h hfit
    by_cases hp : p = []
    · subst hp
      exact ⟨rfl, List.prefix_refl _, .success rfl c h (fun _ => rfl) (.inl rfl)⟩
    obtain ⟨hcpos, hcle⟩ := nextEntry_consumed cfg address hp
    obtain ⟨hraw, hwords⟩ := nextEntry_raw8 cfg address hp
    simp only [wearLevelingWriteRaw, if_pos (List.length_pos_iff.mpr hp)]
    obtain ⟨a₁, a₂, a₃⟩ := appendWords_spec cfg drv ((nextEntry cfg address p).storedWords cfg)
      (storedWords_length hraw hwords) s
    generalize appendWords cfg drv s ((nextEntry cfg address p).storedWords cfg) = r at a₁ a₂ a₃
    by_cases hstatus : r.1 = .success
    · obtain ⟨hroom, c', hlog, hc'⟩ := appendEntry_success h hp hfit a₃ hstatus
      generalize (nextEntry cfg address p).consumed = n at hcpos hcle hc'
      rw [if_pos hstatus]
      obtain ⟨i₁, i₂, i₃⟩ := ih r.2 c' (address + n) (p.drop n) (by simp; omega) hlog (by simp; omega)
      refine ⟨i₁.trans a₁, a₂.trans i₂, i₃.shift a₁ a₂ hcle hc' fun _ hnil => ?_⟩
      have hend : wearLevelingWriteRaw cfg drv fuel r.2 (address + n) (p.drop n) = (.success, r.2) := by
        rw [hnil]
        cases fuel <;> rfl
      rw [hend]
      exact hroom
    · rw [if_neg hstatus]
      exact ⟨a₁, a₂, appendEntry_failed h hp hfit a₃ hstatus⟩

end WriteRaw
end WearLeveling
end VialQmk
