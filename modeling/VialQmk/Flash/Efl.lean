import Mathlib.Algebra.BigOperators.Intervals
import Mathlib.Algebra.Order.BigOperators.Group.Finset
import Mathlib.Tactic.Ring
import Mathlib.Tactic.Linarith

/-!
# Flash.Efl

The choice of sectors for the wear-leveling layer on embedded flash (`wear_leveling_efl.c`), in a build without a fixed
first sector.

* `selectLoop_skips`: the rounds in which the loop leaves out sectors behind the flash.
* `selectLoop_adds`: the rounds in which it adds up sizes.
* `select_iff`: the exact condition under which the two fit together.
-/

namespace VialQmk
namespace Flash

open Finset

/-- The flash descriptor, the detected size and the macros. The offset behind a sector is 32 bits wide. -/
structure Efl where
  sectorsCount : Nat
  sectorOffset : Nat → Nat
  sectorSize : Nat → Nat
  erasedIsOne : Bool
  flashSize : Nat
  backingSize : Nat
  omitLastSectorCount : Nat
  contiguous : ∀ k, k + 1 < sectorsCount → sectorOffset (k + 1) = sectorOffset k + sectorSize k
  size_pos : ∀ k < sectorsCount, 0 < sectorSize k
  end_lt : ∀ k < sectorsCount, sectorOffset k + sectorSize k < 2 ^ 32
  flashSize_lt : flashSize < 2 ^ 32
  backingSize_pos : 0 < backingSize

/-- `base_offset`, `first_sector`, `sector_count` and `flash_erased_is_one`. -/
structure EflState where
  baseOffset : Nat
  firstSector : Nat
  sectorCount : Nat
  flashErasedIsOne : Bool
deriving DecidableEq, Repr

/-- The answers of the flash driver to the erase of a sector: whether the start and the wait went well. -/
abbrev EflDriver := Nat → Bool × Bool

namespace Efl

variable (f : Efl)

def lastSector : Nat := f.sectorsCount - f.omitLastSectorCount

/-- The loop of `backing_store_init` at `i`, with the values that it has when it ends without a choice. -/
def selectLoop (i last counter first : Nat) : EflState :=
  if i < last then
    let first := last - i - 1
    if f.flashSize ≤ f.sectorOffset first then selectLoop (i + 1) first counter first
    else
      let counter := (counter + f.sectorSize first) % 2 ^ 32
      if f.backingSize ≤ counter then ⟨f.sectorOffset first, first, last - first, f.erasedIsOne⟩
      else selectLoop (i + 1) last counter first
  else ⟨2 ^ 32 - 1, first, 2 ^ 16 - 1, f.erasedIsOne⟩
termination_by last - i

def backingStoreInit : Option EflState :=
  if f.sectorsCount ≤ f.omitLastSectorCount then none else some (f.selectLoop 0 f.lastSector 0 (2 ^ 16 - 1))

end Efl

/-- The loop of `backing_store_erase` with `n` sectors to go, and the sectors whose erase was started. -/
def eraseSectors (driver : EflDriver) : Nat → Nat → Bool × List Nat
  | 0, _ => (true, [])
  | n + 1, sector =>
    let rest := eraseSectors driver n (sector + 1)
    ((driver sector).1 && (driver sector).2 && rest.1, sector :: rest.2)

def EflState.backingStoreErase (s : EflState) (driver : EflDriver) : Bool × List Nat :=
  eraseSectors driver s.sectorCount s.firstSector

namespace Efl

variable (f : Efl)

def sectorEnd (k : Nat) : Nat := f.sectorOffset k + f.sectorSize k

/-- Sectors in front of the omitted ones and below the flash size, with room for the backing store. -/
def Suitable (first count : Nat) : Prop :=
  (∀ k, first ≤ k → k < first + count → k < f.lastSector ∧ f.sectorEnd k ≤ f.flashSize) ∧
    f.backingSize ≤ ∑ k ∈ Ico first (first + count), f.sectorSize k

/-- The call selects suitable sectors, and an erase erases them. -/
def Selects : Prop :=
  ∃ s, f.backingStoreInit = some s ∧ s.baseOffset = f.sectorOffset s.firstSector ∧
    f.Suitable s.firstSector s.sectorCount ∧
    ∀ driver, (s.backingStoreErase driver).2 = List.range' s.firstSector s.sectorCount

/-- `m` sectors begin below the flash size, the last of them ends there, the number of the others is the sum of the
first `t` numbers, and the `m` sectors without the last `t` have room for the backing store. -/
def SkipsFit : Prop :=
  ∃ m t, 0 < m ∧ m ≤ f.lastSector ∧ (∀ k < f.lastSector, f.sectorOffset k < f.flashSize ↔ k < m) ∧
    f.sectorEnd (m - 1) ≤ f.flashSize ∧ 2 * (f.lastSector - m) = t * (t + 1) ∧
    f.backingSize ≤ ∑ k ∈ range (m - t), f.sectorSize k

section Sectors

variable {f}

theorem lastSector_le : f.lastSector ≤ f.sectorsCount := Nat.sub_le _ _

theorem sectorEnd_le_offset {j k : Nat} (hjk : j < k) (hk : k < f.sectorsCount) : f.sectorEnd j ≤ f.sectorOffset k := by
  induction k, hjk using Nat.le_induction with
  | base => exact (f.contiguous j hk).ge
  | succ k hle ih =>
    have hstep := f.contiguous k hk
    have hprev := ih (by omega)
    omega

theorem sectorEnd_mono {j k : Nat} (hjk : j ≤ k) (hk : k < f.sectorsCount) : f.sectorEnd j ≤ f.sectorEnd k := by
  rcases Nat.eq_or_lt_of_le hjk with rfl | hlt
  · exact le_rfl
  · exact (sectorEnd_le_offset hlt hk).trans (Nat.le_add_right _ _)

theorem sectorOffset_mono {j k : Nat} (hjk : j ≤ k) (hk : k < f.sectorsCount) :
    f.sectorOffset j ≤ f.sectorOffset k := by
  rcases Nat.eq_or_lt_of_le hjk with rfl | hlt
  · exact le_rfl
  · exact (Nat.le_add_right _ _).trans (sectorEnd_le_offset hlt hk)

theorem sum_sizes {j k : Nat} (hjk : j ≤ k) (hk : k < f.sectorsCount) :
    f.sectorOffset j + ∑ i ∈ Ico j (k + 1), f.sectorSize i = f.sectorEnd k := by
  induction k, hjk using Nat.le_induction with
  | base => simp [sectorEnd]
  | succ k hle ih =>
    have hstep := f.contiguous k hk
    have hprev := ih (by omega)
    rw [Finset.sum_Ico_succ_top (by omega), ← Nat.add_assoc, hprev, sectorEnd, sectorEnd, hstep]

theorem sum_sizes_lt {j k : Nat} (hjk : j ≤ k) (hk : k ≤ f.sectorsCount) :
    ∑ i ∈ Ico j k, f.sectorSize i < 2 ^ 32 := by
  rcases Nat.eq_or_lt_of_le hjk with rfl | hlt
  · simp
  · obtain ⟨n, rfl⟩ : ∃ n, k = n + 1 := ⟨k - 1, by omega⟩
    have hsum := sum_sizes (f := f) (Nat.le_of_lt_succ hlt) hk
    have hend := f.end_lt n hk
    rw [← sectorEnd] at hend
    omega

theorem eraseSectors_snd (driver : EflDriver) (n : Nat) :
    ∀ sector, (eraseSectors driver n sector).2 = List.range' sector n := by
  induction n with
  | zero => intro sector; rfl
  | succ n ih =>
    intro sector
    rw [eraseSectors, List.range'_succ, ih]

end Sectors

section Loop

variable {f}

/-- With `n` sectors below the flash size to go, the loop adds them up until there is room. -/
theorem selectLoop_adds {last t : Nat} (hlast : last ≤ f.sectorsCount) (n : Nat) :
    ∀ first, n ≤ last - t → (∀ k < n, f.sectorOffset k < f.flashSize) →
      ∑ k ∈ Ico n (last - t), f.sectorSize k < f.backingSize →
      let s := f.selectLoop (last - n) last (∑ k ∈ Ico n (last - t), f.sectorSize k) first
      (∃ j < n, s = ⟨f.sectorOffset j, j, last - j, f.erasedIsOne⟩ ∧
          f.backingSize ≤ ∑ k ∈ Ico j (last - t), f.sectorSize k) ∨
        s.baseOffset = 2 ^ 32 - 1 ∧ ∑ k ∈ range (last - t), f.sectorSize k < f.backingSize := by
  induction n with
  | zero =>
    intro first _ _ hroom
    right
    rw [selectLoop, if_neg (by omega), range_eq_Ico]
    exact ⟨rfl, hroom⟩
  | succ n ih =>
    intro first hn hbelow hroom
    have hindex : last - (last - (n + 1)) - 1 = n := by omega
    have hcounter : (∑ k ∈ Ico (n + 1) (last - t), f.sectorSize k + f.sectorSize n) % 2 ^ 32 =
        ∑ k ∈ Ico n (last - t), f.sectorSize k := by
      have hlt := sum_sizes_lt (f := f) (j := n) (k := last - t) (by omega) (by omega)
      have hstep := sum_eq_sum_Ico_succ_bot (show n < last - t by omega) f.sectorSize
      rw [Nat.add_comm, ← hstep, Nat.mod_eq_of_lt hlt]
    intro s
    have hs : s = if f.backingSize ≤ ∑ k ∈ Ico n (last - t), f.sectorSize k then
        ⟨f.sectorOffset n, n, last - n, f.erasedIsOne⟩
        else f.selectLoop (last - n) last (∑ k ∈ Ico n (last - t), f.sectorSize k) n := by
      simp only [s]
      rw [selectLoop, if_pos (by omega)]
      simp only [hindex, hcounter]
      rw [if_neg (Nat.not_le.mpr (hbelow n (by omega))), show last - (n + 1) + 1 = last - n by omega]
    by_cases henough : f.backingSize ≤ ∑ k ∈ Ico n (last - t), f.sectorSize k
    · rw [if_pos henough] at hs
      exact .inl ⟨n, by omega, hs, henough⟩
    · rw [if_neg henough] at hs
      rw [hs]
      rcases ih n (by omega) (fun k hk => hbelow k (by omega)) (Nat.not_le.mp henough) with ⟨j, hj, hsel⟩ | hnone
      · exact .inl ⟨j, by omega, hsel⟩
      · exact .inr hnone

theorem selectLoop_skips (i last first : Nat) (hlast : last ≤ f.lastSector)
    (hskipped : 2 * (f.lastSector - last) = i * (i + 1)) (hbehind : i = 0 ∨ f.flashSize ≤ f.sectorOffset last) :
    ∃ t last' first', f.selectLoop i last 0 first = f.selectLoop t last' 0 first' ∧ last' ≤ f.lastSector ∧
      2 * (f.lastSector - last') = t * (t + 1) ∧ (t = 0 ∨ f.flashSize ≤ f.sectorOffset last') ∧
      (t < last' → f.sectorOffset (last' - t - 1) < f.flashSize) := by
  by_cases hdone : i < last → f.sectorOffset (last - i - 1) < f.flashSize
  · exact ⟨i, last, first, rfl, hlast, hskipped, hbehind, hdone⟩
  · obtain ⟨hi, hskip⟩ := Classical.not_imp.mp hdone
    rw [Nat.not_lt] at hskip
    have hstep : f.selectLoop i last 0 first = f.selectLoop (i + 1) (last - i - 1) 0 (last - i - 1) := by
      rw [selectLoop, if_pos hi, if_pos hskip]
    rw [hstep]
    refine selectLoop_skips (i + 1) (last - i - 1) (last - i - 1) (by omega) ?_ (.inr hskip)
    have hsum : (i + 1) * (i + 1 + 1) = i * (i + 1) + 2 * (i + 1) := by ring
    rw [hsum, ← hskipped]
    omega
termination_by last - i

theorem not_suitable_of_base {s : EflState} (hbase : s.baseOffset = 2 ^ 32 - 1)
    (hoffset : s.baseOffset = f.sectorOffset s.firstSector) : ¬ f.Suitable s.firstSector s.sectorCount := by
  rintro ⟨hin, hroom⟩
  cases hcount : s.sectorCount with
  | zero =>
    rw [hcount, Nat.add_zero, Ico_self, sum_empty] at hroom
    exact absurd hroom (Nat.not_le.mpr f.backingSize_pos)
  | succ n =>
    obtain ⟨hlast, hend⟩ := hin s.firstSector le_rfl (by omega)
    have hpos := f.size_pos s.firstSector (Nat.lt_of_lt_of_le hlast lastSector_le)
    have hlt := f.flashSize_lt
    rw [sectorEnd] at hend
    omega

theorem below_unique {m t last' t' : Nat} (hm : m ≤ f.lastSector)
    (hbelow : ∀ k < f.lastSector, f.sectorOffset k < f.flashSize ↔ k < m)
    (ht : 2 * (f.lastSector - m) = t * (t + 1)) (hlast : last' ≤ f.lastSector)
    (ht' : 2 * (f.lastSector - last') = t' * (t' + 1)) (hbehind : t' = 0 ∨ f.flashSize ≤ f.sectorOffset last')
    (hstops : t' < last' → f.sectorOffset (last' - t' - 1) < f.flashSize) (hroom : t < m) : last' = m ∧ t' = t := by
  have hge : m ≤ last' := by
    by_contra hlt
    rcases hbehind with rfl | hbehind
    · omega
    · exact absurd ((hbelow last' (by omega)).mpr (by omega)) (Nat.not_lt.mpr hbehind)
  have hle : t' ≤ t := by
    by_contra hgt
    have hmul := Nat.mul_le_mul (show t + 1 ≤ t' by omega) (show t + 2 ≤ t' + 1 by omega)
    have hsum : (t + 1) * (t + 2) = t * (t + 1) + 2 * (t + 1) := by ring
    omega
  have heq : t' = t := by
    by_contra hne
    have hstop := (hbelow _ (by omega)).mp (hstops (by omega))
    have hmul := Nat.mul_le_mul (show t' + 1 ≤ t by omega) (show t' + 2 ≤ t + 1 by omega)
    have hsum : (t' + 1) * (t' + 2) = t' * (t' + 1) + 2 * (t' + 1) := by ring
    omega
  subst heq
  exact ⟨by omega, rfl⟩

theorem selects_iff_of_init {s : EflState} (hinit : f.backingStoreInit = some s) :
    f.Selects ↔ s.baseOffset = f.sectorOffset s.firstSector ∧ f.Suitable s.firstSector s.sectorCount := by
  constructor
  · rintro ⟨s', hs', hbase, hsuitable, -⟩
    cases hinit.symm.trans hs'
    exact ⟨hbase, hsuitable⟩
  · rintro ⟨hbase, hsuitable⟩
    exact ⟨s, hinit, hbase, hsuitable, fun driver => eraseSectors_snd driver _ _⟩

theorem suitable_iff {first last : Nat} (hfirst : first < last) (hlast : last ≤ f.lastSector)
    (hroom : f.backingSize ≤ ∑ k ∈ Ico first last, f.sectorSize k) :
    f.Suitable first (last - first) ↔ f.sectorEnd (last - 1) ≤ f.flashSize := by
  have hle := lastSector_le (f := f)
  rw [Suitable, Nat.add_sub_cancel' hfirst.le]
  constructor
  · rintro ⟨hin, -⟩
    exact (hin (last - 1) (by omega) (by omega)).2
  · intro hend
    refine ⟨fun k hk hk' => ⟨by omega, ?_⟩, hroom⟩
    exact (sectorEnd_mono (by omega) (by omega)).trans hend

/-- Where the loop has moved its bound to the last sector below the flash size, the sectors that begin below it are
those in front of the bound. -/
theorem below_iff {last : Nat} (hpos : 0 < last) (hlast : last ≤ f.lastSector)
    (hend : f.sectorEnd (last - 1) ≤ f.flashSize)
    (hbehind : last = f.lastSector ∨ f.flashSize ≤ f.sectorOffset last) {k : Nat} (hk : k < f.lastSector) :
    f.sectorOffset k < f.flashSize ↔ k < last := by
  have hle := lastSector_le (f := f)
  constructor
  · intro hbelow
    by_contra hge
    rcases hbehind with rfl | hbehind
    · omega
    · have hmono := sectorOffset_mono (f := f) (Nat.not_lt.mp hge) (by omega)
      omega
  · intro hlt
    have hmono := sectorEnd_mono (f := f) (show k ≤ last - 1 by omega) (by omega)
    have hsize := f.size_pos k (by omega)
    rw [sectorEnd] at hmono
    omega

theorem sum_Ico_le_range (j k : Nat) : ∑ i ∈ Ico j k, f.sectorSize i ≤ ∑ i ∈ range k, f.sectorSize i := by
  rw [range_eq_Ico]
  exact sum_le_sum_of_subset (Ico_subset_Ico_left (Nat.zero_le j))

theorem fit_iff {last t first : Nat} {s : EflState} (hs : s = f.selectLoop t last 0 first) (hlast : last ≤ f.lastSector)
    (hskipped : 2 * (f.lastSector - last) = t * (t + 1)) (hbehind : t = 0 ∨ f.flashSize ≤ f.sectorOffset last)
    (hstops : t < last → f.sectorOffset (last - t - 1) < f.flashSize) :
    s.baseOffset = f.sectorOffset s.firstSector ∧ f.Suitable s.firstSector s.sectorCount ↔ f.SkipsFit := by
  have hle := lastSector_le (f := f)
  have hunique : f.SkipsFit →
      t < last ∧ f.sectorEnd (last - 1) ≤ f.flashSize ∧ f.backingSize ≤ ∑ k ∈ range (last - t), f.sectorSize k := by
    rintro ⟨m, t', hpos, hm, hbelow, hend, ht', hroom⟩
    have hlt : t' < m := by
      by_contra hge
      rw [Nat.sub_eq_zero_of_le (Nat.not_lt.mp hge), range_zero, sum_empty] at hroom
      exact absurd hroom (Nat.not_le.mpr f.backingSize_pos)
    obtain ⟨rfl, rfl⟩ := below_unique hm hbelow ht' hlast hskipped hbehind hstops hlt
    exact ⟨hlt, hend, hroom⟩
  by_cases hdone : t < last
  · have hbelow : ∀ k < last - t, f.sectorOffset k < f.flashSize := by
      intro k hk
      exact Nat.lt_of_le_of_lt (sectorOffset_mono (by omega) (by omega)) (hstops hdone)
    have hsum : ∑ k ∈ Ico (last - t) (last - t), f.sectorSize k = 0 := by simp
    have hadds := selectLoop_adds (t := t) (hlast.trans hle) (last - t) first le_rfl hbelow
      (by rw [hsum]; exact f.backingSize_pos)
    simp only [hsum, show last - (last - t) = t by omega, ← hs] at hadds
    rcases hadds with ⟨j, hj, hsel, hroom⟩ | ⟨hbase, hshort⟩
    · have hmore : f.backingSize ≤ ∑ k ∈ Ico j last, f.sectorSize k :=
        hroom.trans (sum_le_sum_of_subset (Ico_subset_Ico_right (Nat.sub_le _ _)))
      rw [hsel]
      simp only [true_and]
      rw [suitable_iff (by omega) hlast hmore]
      constructor
      · intro hend
        refine ⟨last, t, by omega, hlast, ?_, hend, hskipped, hroom.trans (sum_Ico_le_range _ _)⟩
        intro k hk
        refine below_iff (by omega) hlast hend ?_ hk
        rcases hbehind with rfl | hbehind
        · left
          omega
        · exact .inr hbehind
      · intro hfit
        exact (hunique hfit).2.1
    · constructor
      · rintro ⟨hoffset, hsuitable⟩
        exact absurd hsuitable (not_suitable_of_base hbase hoffset)
      · intro hfit
        exact absurd (hunique hfit).2.2 (Nat.not_le.mpr hshort)
  · have hbase : s.baseOffset = 2 ^ 32 - 1 := by
      rw [hs, selectLoop, if_neg hdone]
    constructor
    · rintro ⟨hoffset, hsuitable⟩
      exact absurd hsuitable (not_suitable_of_base hbase hoffset)
    · intro hfit
      exact absurd (hunique hfit).1 hdone

theorem selects_iff (f : Efl) : f.Selects ↔ f.SkipsFit := by
  by_cases homit : f.sectorsCount ≤ f.omitLastSectorCount
  · have hzero : f.lastSector = 0 := Nat.sub_eq_zero_of_le homit
    constructor
    · rintro ⟨s, hinit, -⟩
      rw [backingStoreInit, if_pos homit] at hinit
      cases hinit
    · rintro ⟨m, t, hpos, hm, -⟩
      omega
  · have hinit : f.backingStoreInit = some (f.selectLoop 0 f.lastSector 0 (2 ^ 16 - 1)) := by
      rw [backingStoreInit, if_neg homit]
    obtain ⟨t, last, first, hloop, hlast, hskipped, hbehind, hstops⟩ :=
      selectLoop_skips 0 f.lastSector (2 ^ 16 - 1) le_rfl (by simp) (.inl rfl)
    rw [selects_iff_of_init hinit]
    exact fit_iff hloop hlast hskipped hbehind hstops

end Loop

/-- Where there are suitable sectors at all, the call selects some exactly when the sectors behind the flash are as many
as the loop skips over without a gap. -/
theorem backing_store_init_iff (f : Efl) :
    ((∃ first count, f.Suitable first count) → f.Selects) ↔ ((∃ first count, f.Suitable first count) → f.SkipsFit) := by
  rw [selects_iff]

def twoBehind : Efl where
  sectorsCount := 8
  sectorOffset k := 1024 * k
  sectorSize _ := 1024
  erasedIsOne := true
  flashSize := 6144
  backingSize := 2048
  omitLastSectorCount := 0
  contiguous _ _ := by omega
  size_pos _ _ := by decide
  end_lt _ _ := by omega
  flashSize_lt := by decide
  backingSize_pos := by decide

/-- Sector 6, behind the flash, is one of the three that are selected. -/
theorem sector_behind_flash_selected : twoBehind.Suitable 4 2 ∧ ¬ twoBehind.Selects ∧
    twoBehind.backingStoreInit = some ⟨4096, 4, 3, true⟩ := by
  have hinit : twoBehind.backingStoreInit = some ⟨4096, 4, 3, true⟩ := by
    simp [backingStoreInit, selectLoop, twoBehind, lastSector]
  refine ⟨⟨?_, by decide⟩, ?_, hinit⟩
  · intro k hk hk'
    simp only [twoBehind, lastSector, sectorEnd]
    omega
  · rw [selects_iff_of_init hinit]
    rintro ⟨-, hin, -⟩
    exact absurd (hin 6 (by decide) (by decide)).2 (by decide)

end Efl

end Flash
end VialQmk
