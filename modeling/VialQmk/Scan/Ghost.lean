import VialQmk.Lib.Bits
import VialQmk.Lib.Chords
import Mathlib.Combinatorics.SimpleGraph.Connectivity.Finite

/-!
# Scan.Ghost

`matrix_task` of `keyboard.c` with the ghost filter, on a matrix without diodes.

* `Scan`: what the matrix reads when certain switches are closed: a row and a column that closed switches join.
* `matrixTask_pressed`: a press event comes from a row without a ghost, at a position that reads as closed.
* `sound_iff_chorded`: no key of the keymap is ever pressed by a ghost just where the keys of the keymap make no
  cycle through three rows or more without a chord.
-/

namespace VialQmk
namespace Scan

open Lib

/-- `MATRIX_ROWS`, `MATRIX_COLS` and the width of `matrix_row_t`. -/
structure MatrixSize where
  rows : Nat
  cols : Nat
  width : Nat
  cols_le : cols ≤ width

variable {size : MatrixSize}

abbrev Keymap (size : MatrixSize) := Fin size.rows → Fin size.cols → UInt16

abbrev MatrixRow (size : MatrixSize) := BitVec size.width

/-- The bits of the columns for which `p` holds, put in one after the other. -/
def collect (p : Fin size.cols → Bool) : MatrixRow size :=
  (List.finRange size.cols).foldl (fun out col => if p col then out ||| BitVec.ofNat size.width 1 <<< col.val else out) 0

def getRealKeys (keymap : Keymap size) (row : Fin size.rows) (rowdata : MatrixRow size) : MatrixRow size :=
  collect fun col => keymap row col ≠ 0 && rowdata.getLsbD col

def popcountMoreThanOne (rowdata : MatrixRow size) : Bool := rowdata &&& (rowdata - 1) ≠ 0

def hasGhostInRow (keymap : Keymap size) (matrix : Fin size.rows → MatrixRow size) (row : Fin size.rows)
    (rowdata : MatrixRow size) : Bool :=
  let rowdata := getRealKeys keymap row rowdata
  popcountMoreThanOne rowdata &&
    (List.finRange size.rows).any fun i => i ≠ row && popcountMoreThanOne (getRealKeys keymap i (matrix i) &&& rowdata)

/-- `action_exec` with a key event, or `switch_events`. -/
inductive MatrixCallee where
  | actionExec
  | switchEvents
deriving DecidableEq

structure MatrixCall (size : MatrixSize) where
  callee : MatrixCallee
  row : Fin size.rows
  col : Fin size.cols
  pressed : Bool
deriving DecidableEq

def rowCalls (processKeypress : Bool) (row : Fin size.rows) (current changes : MatrixRow size) : List (MatrixCall size) :=
  (List.finRange size.cols).flatMap fun (col : Fin size.cols) =>
    if changes.getLsbD col then
      (if processKeypress then [⟨.actionExec, row, col, current.getLsbD col⟩] else []) ++
        [⟨.switchEvents, row, col, current.getLsbD col⟩]
    else []

/-- A row without changes is skipped, and so is one with a ghost, which stays as it was. -/
def skips (keymap : Keymap size) (matrix previous : Fin size.rows → MatrixRow size) (row : Fin size.rows) : Bool :=
  matrix row ^^^ previous row = 0 || hasGhostInRow keymap matrix row (matrix row)

/-- `matrix_previous` behind the task, and the calls. Each row reads and writes its own entry only. -/
def matrixTask (keymap : Keymap size) (canRead processKeypress : Bool) (matrix previous : Fin size.rows → MatrixRow size) :
    (Fin size.rows → MatrixRow size) × List (MatrixCall size) :=
  if ¬ canRead ∨ ∀ row, previous row ^^^ matrix row = 0 then (previous, [])
  else
    (fun row => if skips keymap matrix previous row then previous row else matrix row,
      (List.finRange size.rows).flatMap fun row =>
        if skips keymap matrix previous row then []
        else rowCalls processKeypress row (matrix row) (matrix row ^^^ previous row))

/-- The wires of the rows and the columns, joined where `p` holds. -/
def wires (p : Fin size.rows → Fin size.cols → Prop) : SimpleGraph (Fin size.rows ⊕ Fin size.cols) where
  Adj
    | .inl r, .inr c => p r c
    | .inr c, .inl r => p r c
    | _, _ => False
  symm := by
    refine ⟨fun x y h => ?_⟩
    cases x <;> cases y <;> exact h
  loopless := by
    refine ⟨fun x h => ?_⟩
    cases x <;> exact h

def IsReal (keymap : Keymap size) (r : Fin size.rows) (c : Fin size.cols) : Prop := keymap r c ≠ 0

/-- One call of the task, with the switches that are closed: the matrix reads each row and column that these join. -/
structure MatrixScan (keymap : Keymap size) where
  canRead : Bool
  processKeypress : Bool
  closed : Fin size.rows → Fin size.cols → Prop
  matrix : Fin size.rows → MatrixRow size
  closed_real : ∀ r c, closed r c → IsReal keymap r c
  sees : ∀ r c, (matrix r).getLsbD c.val = true ↔ (wires closed).Reachable (.inl r) (.inr c)

def runScans (keymap : Keymap size) :
    (Fin size.rows → MatrixRow size) → List (MatrixScan keymap) → List (MatrixScan keymap × List (MatrixCall size))
  | _, [] => []
  | previous, scan :: scans =>
    let next := matrixTask keymap scan.canRead scan.processKeypress scan.matrix previous
    (scan, next.2) :: runScans keymap next.1 scans

/-- In every run, each press of a key of the keymap is the press of a closed switch. -/
def Sound (keymap : Keymap size) : Prop :=
  ∀ scans : List (MatrixScan keymap), ∀ done ∈ runScans keymap (fun _ => 0) scans, ∀ call ∈ done.2,
    call.pressed = true → IsReal keymap call.row call.col → done.1.closed call.row call.col

theorem collect_getLsbD {p : Fin size.cols → Bool} {i : Nat} :
    (collect p).getLsbD i = true ↔ ∃ col : Fin size.cols, col.val = i ∧ p col = true := by
  have hfold : ∀ (cols : List (Fin size.cols)) (out : MatrixRow size),
      (cols.foldl (fun out col => if p col then out ||| BitVec.ofNat size.width 1 <<< col.val else out) out).getLsbD i = true ↔
        out.getLsbD i = true ∨ ∃ col ∈ cols, col.val = i ∧ p col = true := by
    intro cols
    induction cols with
    | nil => simp
    | cons c cols ih =>
      intro out
      have hlt : c.val < size.width := Nat.lt_of_lt_of_le c.isLt size.cols_le
      have hstep : (if p c then out ||| BitVec.ofNat size.width 1 <<< c.val else out).getLsbD i = true ↔
          out.getLsbD i = true ∨ (c.val = i ∧ p c = true) := by
        by_cases hc : p c = true
        · rw [if_pos hc, getLsbD_or_one_shiftLeft]
          constructor
          · rintro (hout | ⟨heq, -⟩)
            · exact .inl hout
            · exact .inr ⟨heq.symm, hc⟩
          · rintro (hout | ⟨heq, -⟩)
            · exact .inl hout
            · exact .inr ⟨heq.symm, hlt⟩
        · simp [hc]
      rw [List.foldl_cons, ih, hstep, or_assoc]
      simp only [List.mem_cons, exists_eq_or_imp]
  refine (hfold _ 0).trans ?_
  simp [List.mem_finRange]

theorem popcountMoreThanOne_iff {x : MatrixRow size} :
    popcountMoreThanOne x = true ↔ ∃ i j, i ≠ j ∧ x.getLsbD i = true ∧ x.getLsbD j = true := by
  unfold popcountMoreThanOne
  rw [decide_eq_true_eq]
  constructor
  · intro h
    by_contra hall
    push Not at hall
    obtain ⟨i, hi⟩ : ∃ i, x.getLsbD i = true := by
      by_contra hnone
      push Not at hnone
      have hzero : x = 0 := BitVec.eq_of_getLsbD_eq fun i _ => by simpa using hnone i
      exact h (by simp [hzero])
    refine h (and_sub_one_of_unique hi fun j hj => ?_)
    by_contra hne
    exact hall j i hne hj hi
  · rintro ⟨i, j, hij, hi, hj⟩ hzero
    exact hij (eq_of_and_sub_one hzero hi hj)

section Task

variable {keymap : Keymap size} {matrix previous : Fin size.rows → MatrixRow size} {canRead processKeypress : Bool}
  {row : Fin size.rows} {col : Fin size.cols}

def ReadsReal (keymap : Keymap size) (matrix : Fin size.rows → MatrixRow size) (r : Fin size.rows)
    (c : Fin size.cols) : Prop :=
  IsReal keymap r c ∧ (matrix r).getLsbD c = true

theorem getRealKeys_getLsbD {i : Nat} :
    (getRealKeys keymap row (matrix row)).getLsbD i = true ↔ ∃ c : Fin size.cols, c.val = i ∧ ReadsReal keymap matrix row c := by
  simp [getRealKeys, collect_getLsbD, ReadsReal, IsReal]

theorem hasGhostInRow_iff :
    hasGhostInRow keymap matrix row (matrix row) = true ↔
      ∃ i ≠ row, ∃ c d, c ≠ d ∧ ReadsReal keymap matrix row c ∧ ReadsReal keymap matrix row d ∧
        ReadsReal keymap matrix i c ∧ ReadsReal keymap matrix i d := by
  unfold hasGhostInRow
  simp only [Bool.and_eq_true, List.any_eq_true, List.mem_finRange, true_and, decide_eq_true_eq,
    popcountMoreThanOne_iff, BitVec.getLsbD_and, getRealKeys_getLsbD]
  constructor
  · rintro ⟨-, i, hi, a, b, hab, ⟨⟨c, rfl, hic⟩, ⟨c', hc', hrc⟩⟩, ⟨d, rfl, hid⟩, ⟨d', hd', hrd⟩⟩
    obtain rfl := Fin.ext hc'
    obtain rfl := Fin.ext hd'
    exact ⟨i, hi, c', d', fun h => hab (h ▸ rfl), hrc, hrd, hic, hid⟩
  · rintro ⟨i, hi, c, d, hcd, hrc, hrd, hic, hid⟩
    have hne : c.val ≠ d.val := fun h => hcd (Fin.ext h)
    exact ⟨⟨c, d, hne, ⟨c, rfl, hrc⟩, ⟨d, rfl, hrd⟩⟩, i, hi, c, d, hne, ⟨⟨c, rfl, hic⟩, ⟨c, rfl, hrc⟩⟩,
      ⟨d, rfl, hid⟩, ⟨d, rfl, hrd⟩⟩

theorem mem_rowCalls {current changes : MatrixRow size} {call : MatrixCall size}
    (h : call ∈ rowCalls processKeypress row current changes) :
    call.row = row ∧ call.pressed = current.getLsbD call.col := by
  simp only [rowCalls, List.mem_flatMap, List.mem_finRange, true_and] at h
  obtain ⟨c, h⟩ := h
  split at h
  · rcases List.mem_append.mp h with h | h
    · split at h
      · rw [List.mem_singleton] at h
        subst h
        exact ⟨rfl, rfl⟩
      · cases h
    · rw [List.mem_singleton] at h
      subst h
      exact ⟨rfl, rfl⟩
  · cases h

theorem matrixTask_pressed {call : MatrixCall size}
    (h : call ∈ (matrixTask keymap canRead processKeypress matrix previous).2) (hpressed : call.pressed = true) :
    (matrix call.row).getLsbD call.col = true ∧ hasGhostInRow keymap matrix call.row (matrix call.row) = false := by
  unfold matrixTask at h
  split at h
  · cases h
  · simp only [List.mem_flatMap, List.mem_finRange, true_and] at h
    obtain ⟨row, h⟩ := h
    split at h
    · cases h
    · next hskips =>
      obtain ⟨rfl, hbit⟩ := mem_rowCalls h
      rw [skips, Bool.or_eq_true, not_or, Bool.not_eq_true, Bool.not_eq_true] at hskips
      exact ⟨hbit.symm.trans hpressed, hskips.2⟩

theorem pressed_of_reads (hread : canRead = true) (hbit : (matrix row).getLsbD col = true)
    (hbefore : (previous row).getLsbD col = false) (hghost : hasGhostInRow keymap matrix row (matrix row) = false) :
    (⟨.switchEvents, row, col, true⟩ : MatrixCall size) ∈
      (matrixTask keymap canRead processKeypress matrix previous).2 := by
  have hchange : (matrix row ^^^ previous row).getLsbD col = true := by simp [hbit, hbefore]
  have hne : matrix row ^^^ previous row ≠ 0 := by
    intro hzero
    simp [hzero] at hchange
  have hskips : skips keymap matrix previous row = false := by
    rw [skips, hghost, Bool.or_false, decide_eq_false_iff_not]
    exact hne
  unfold matrixTask
  rw [if_neg]
  · simp only [List.mem_flatMap, List.mem_finRange, true_and]
    refine ⟨row, ?_⟩
    rw [if_neg (by simp [hskips]), rowCalls]
    simp only [List.mem_flatMap, List.mem_finRange, true_and]
    refine ⟨col, ?_⟩
    rw [if_pos hchange]
    simp [hbit]
  · rintro (hno | hall)
    · exact hno hread
    · exact hne (by rw [BitVec.xor_comm]; exact hall row)

end Task

section Ghosts

open SimpleGraph

variable {keymap : Keymap size} {p : Fin size.rows → Fin size.cols → Prop} {x y : Fin size.rows ⊕ Fin size.cols}
  {r : Fin size.rows} {c : Fin size.cols}

def sides (p : Fin size.rows → Fin size.cols → Prop) : (wires p).Coloring Bool :=
  Coloring.mk Sum.isLeft (by
    intro x y h
    cases x <;> cases y <;> simp_all [wires])

theorem exists_inr_of_adj (h : (wires p).Adj (.inl r) x) : ∃ c, x = .inr c ∧ p r c := by
  cases x with
  | inl r' => exact h.elim
  | inr c => exact ⟨c, rfl, h⟩

theorem exists_inl_of_adj (h : (wires p).Adj x (.inr c)) : ∃ r, x = .inl r ∧ p r c := by
  cases x with
  | inl r => exact ⟨r, rfl, h⟩
  | inr c' => exact h.elim

theorem mem_runScans {previous : Fin size.rows → MatrixRow size} {scans : List (MatrixScan keymap)}
    {done : MatrixScan keymap × List (MatrixCall size)} (h : done ∈ runScans keymap previous scans) :
    ∃ before, done.2 = (matrixTask keymap done.1.canRead done.1.processKeypress done.1.matrix before).2 := by
  induction scans generalizing previous with
  | nil => cases h
  | cons scan scans ih =>
    rcases List.mem_cons.mp h with rfl | h
    · exact ⟨previous, rfl⟩
    · exact ih h

theorem reachable_without (scan : MatrixScan keymap) (hopen : ¬ scan.closed r c)
    (hx : (wires scan.closed).Reachable (.inl r) x) (w : (wires scan.closed).Walk x y) :
    (without (wires (IsReal keymap)) {z | (wires scan.closed).Reachable (.inl r) z} s(.inl r, .inr c)).Reachable x y := by
  induction w with
  | nil => exact .refl _
  | @cons x z y hadj w ih =>
    have hz := hx.trans hadj.reachable
    have hreal : (wires (IsReal keymap)).Adj x z := by
      cases x with
      | inl i =>
        obtain ⟨d, rfl, hclosed⟩ := exists_inr_of_adj hadj
        exact scan.closed_real i d hclosed
      | inr d =>
        obtain ⟨i, rfl, hclosed⟩ := exists_inl_of_adj hadj.symm
        exact scan.closed_real i d hclosed
    have hne : s(x, z) ≠ s(.inl r, .inr c) := by
      intro heq
      rw [Sym2.eq_iff] at heq
      rcases heq with ⟨rfl, rfl⟩ | ⟨rfl, rfl⟩
      · exact hopen hadj
      · exact hopen hadj
    have hfirst : (without (wires (IsReal keymap)) {z | (wires scan.closed).Reachable (.inl r) z}
        s(.inl r, .inr c)).Adj x z := ⟨hreal, hx, hz, hne⟩
    exact hfirst.reachable.trans (ih hz)

theorem ghost_shares_columns (hchords : Chorded (wires (IsReal keymap))) (scan : MatrixScan keymap)
    (hreal : IsReal keymap r c) (hbit : (scan.matrix r).getLsbD c = true) (hopen : ¬ scan.closed r c) :
    hasGhostInRow keymap scan.matrix r (scan.matrix r) = true := by
  have hseen := (scan.sees r c).mp hbit
  obtain ⟨w⟩ := hseen
  have haround := reachable_without scan hopen (.refl _) w
  have hadj : (wires (IsReal keymap)).Adj (.inl r) (.inr c) := hreal
  obtain ⟨x, y, hrx, hxy, hyc⟩ := hchords.exists_square (sides _) hadj (Reachable.refl _) haround
  obtain ⟨d, rfl, hrd⟩ := exists_inr_of_adj hrx.1
  obtain ⟨i, rfl, hic⟩ := exists_inl_of_adj hyc.1
  have hid : IsReal keymap i d := hxy.1
  have hreads : ∀ {j : Fin size.rows} {e : Fin size.cols}, (wires scan.closed).Reachable (.inl r) (.inl j) →
      (wires scan.closed).Reachable (.inl r) (.inr e) → IsReal keymap j e → ReadsReal keymap scan.matrix j e :=
    fun hj he hreal => ⟨hreal, (scan.sees _ _).mpr (hj.symm.trans he)⟩
  refine hasGhostInRow_iff.mpr ⟨i, ?_, c, d, ?_, ⟨hreal, hbit⟩, ?_, ?_, ?_⟩
  · rintro rfl
    exact hyc.2.2.2 rfl
  · rintro rfl
    exact hrx.2.2.2 rfl
  · exact hreads (.refl _) hrx.2.2.1 hrd
  · exact hreads hyc.2.1 hyc.2.2.1 hic
  · exact hreads hyc.2.1 hrx.2.2.1 hid

theorem sound_of_chorded (hchords : Chorded (wires (IsReal keymap))) : Sound keymap := by
  intro scans done hdone call hcall hpressed hreal
  obtain ⟨before, heq⟩ := mem_runScans hdone
  rw [heq] at hcall
  obtain ⟨hbit, hghost⟩ := matrixTask_pressed hcall hpressed
  by_contra hopen
  cases (ghost_shares_columns hchords done.1 hreal hbit hopen).symm.trans hghost

def switchesOf (q : (wires (IsReal keymap)).Walk x y) (r : Fin size.rows) (c : Fin size.cols) : Prop :=
  s(.inl r, .inr c) ∈ q.edges

theorem mem_edges_of_adj {q : (wires (IsReal keymap)).Walk x y} {u v : Fin size.rows ⊕ Fin size.cols}
    (h : (wires (switchesOf q)).Adj u v) : s(u, v) ∈ q.edges := by
  cases u with
  | inl r =>
    obtain ⟨c, rfl, hmem⟩ := exists_inr_of_adj h
    exact hmem
  | inr c =>
    obtain ⟨r, rfl, hmem⟩ := exists_inl_of_adj h.symm
    rw [Sym2.eq_swap]
    exact hmem

theorem reachable_ends (q : (wires (IsReal keymap)).Walk x y) : (wires (switchesOf q)).Reachable x y := by
  refine (q.transfer (wires (switchesOf q)) fun e he => ?_).reachable
  induction e with
  | h u v =>
    have hadj := q.adj_of_mem_edges he
    cases u with
    | inl r =>
      obtain ⟨c, rfl, -⟩ := exists_inr_of_adj hadj
      exact he
    | inr c =>
      obtain ⟨r, rfl, -⟩ := exists_inl_of_adj hadj.symm
      rw [Sym2.eq_swap] at he
      exact he

theorem mem_support_of_reachable {q : (wires (IsReal keymap)).Walk x y} {u v : Fin size.rows ⊕ Fin size.cols}
    (h : (wires (switchesOf q)).Reachable u v) (hne : u ≠ v) : u ∈ q.support := by
  obtain ⟨w⟩ := h
  cases w with
  | nil => exact absurd rfl hne
  | cons hadj w => exact q.fst_mem_support_of_mem_edges (mem_edges_of_adj hadj)

open Classical in
noncomputable def scanOf (q : (wires (IsReal keymap)).Walk x y) : MatrixScan keymap where
  canRead := true
  processKeypress := true
  closed := switchesOf q
  matrix r := collect fun c => decide ((wires (switchesOf q)).Reachable (.inl r) (.inr c))
  closed_real r c h := q.adj_of_mem_edges h
  sees r c := by
    rw [collect_getLsbD]
    constructor
    · rintro ⟨c', hc', h⟩
      obtain rfl := Fin.ext hc'
      exact of_decide_eq_true h
    · intro h
      exact ⟨c, rfl, decide_eq_true h⟩

theorem chorded_of_sound (h : Sound keymap) : Chorded (wires (IsReal keymap)) := by
  intro v p hp hlong
  by_contra hall
  push Not at hall
  cases p with
  | nil => simp at hlong
  | @cons _ w _ hadj q =>
    have hnot := ((Walk.cons_isCycle_iff q hadj).mp hp).2
    obtain ⟨r, c, he, hreach⟩ : ∃ r c, s(v, w) = s(.inl r, .inr c) ∧ (wires (switchesOf q)).Reachable (.inl r) (.inr c) := by
      cases v with
      | inl r =>
        obtain ⟨c, rfl, -⟩ := exists_inr_of_adj hadj
        exact ⟨r, c, rfl, (reachable_ends q).symm⟩
      | inr c =>
        obtain ⟨r, rfl, -⟩ := exists_inl_of_adj hadj.symm
        exact ⟨r, c, Sym2.eq_swap, reachable_ends q⟩
    have hreal : IsReal keymap r c := by
      have hmem : s(.inl r, .inr c) ∈ (Walk.cons hadj q).edges := he ▸ List.mem_cons_self
      exact (Walk.cons hadj q).adj_of_mem_edges hmem
    have hsees : ∀ {i j}, ((scanOf q).matrix i).getLsbD j.val = true →
        (wires (switchesOf q)).Reachable (.inl i) (.inr j) := fun h => ((scanOf q).sees _ _).mp h
    have hedge : ∀ {i j}, ReadsReal keymap (scanOf q).matrix i j → s(.inl i, .inr j) ∈ (Walk.cons hadj q).edges := by
      intro i j hij
      have hinl := mem_support_of_reachable (hsees hij.2) Sum.inl_ne_inr
      have hinr := mem_support_of_reachable (hsees hij.2).symm Sum.inr_ne_inl
      exact hall _ (List.mem_cons_of_mem v hinl) _ (List.mem_cons_of_mem v hinr) hij.1
    have hghost : hasGhostInRow keymap (scanOf q).matrix r ((scanOf q).matrix r) = false := by
      rw [Bool.eq_false_iff]
      intro hghost
      obtain ⟨i, hi, c, d, hcd, hrc, hrd, hic, hid⟩ := hasGhostInRow_iff.mp hghost
      have hdr := hedge hrd
      have hci := hedge hic
      rw [Sym2.eq_swap] at hdr hci
      exact no_square hp hlong (fun h => hi (Sum.inl.inj h).symm) (fun h => hcd (Sum.inr.inj h)) (hedge hrc) hci
        (hedge hid) hdr
    have hpressed : (⟨.switchEvents, r, c, true⟩ : MatrixCall size) ∈
        (matrixTask keymap true true (scanOf q).matrix fun _ => 0).2 :=
      pressed_of_reads rfl (((scanOf q).sees r c).mpr hreach) (by simp) hghost
    have hclosed := h [scanOf q] _ List.mem_cons_self _ hpressed rfl hreal
    exact hnot (he ▸ hclosed)

end Ghosts

/-- Ghosts never press a key of the keymap just where its keys make no cycle through three rows or more that has no
chord. -/
theorem sound_iff_chorded (keymap : Keymap size) : Sound keymap ↔ Chorded (wires (IsReal keymap)) :=
  ⟨chorded_of_sound, sound_of_chorded⟩

def twoByTwo : MatrixSize where
  rows := 2
  cols := 2
  width := 8
  cols_le := Nat.le_add_left 2 6

def corner : Keymap twoByTwo := fun r c => if r.val = 1 ∧ c.val = 1 then 0 else 4

def cornerScan : MatrixScan corner where
  canRead := true
  processKeypress := true
  closed := IsReal corner
  matrix _ := 3#8
  closed_real _ _ h := h
  sees := by
    have hfirst : ∀ c : Fin 2, (wires (IsReal corner)).Reachable (.inl (0 : Fin 2)) (.inr c) := by
      intro c
      have hadj : (wires (IsReal corner)).Adj (.inl (0 : Fin 2)) (.inr c) := by
        have hkey : ∀ c : Fin 2, corner (0 : Fin 2) c ≠ 0 := by
          intro c
          simp [corner]
        exact hkey c
      exact hadj.reachable
    have hrow : (wires (IsReal corner)).Reachable (.inl (1 : Fin 2)) (.inl (0 : Fin 2)) := by
      have hadj : (wires (IsReal corner)).Adj (.inl (1 : Fin 2)) (.inr (0 : Fin 2)) := by
        change corner (1 : Fin 2) (0 : Fin 2) ≠ 0
        decide
      exact hadj.reachable.trans (hfirst 0).symm
    intro r c
    have hbit : (3#8).getLsbD c.val = true := by
      revert c
      decide
    refine ⟨fun _ => ?_, fun _ => hbit⟩
    match r with
    | ⟨0, _⟩ => exact hfirst c
    | ⟨1, _⟩ => exact hrow.trans (hfirst c)

/-- The blank position is pressed, and no switch is closed there. -/
theorem blank_corner_pressed :
    ¬ ∀ scans : List (MatrixScan corner), ∀ done ∈ runScans corner (fun _ => 0) scans, ∀ call ∈ done.2,
      call.pressed = true → done.1.closed call.row call.col := by
  intro h
  have hghost : hasGhostInRow corner cornerScan.matrix (1 : Fin 2) (cornerScan.matrix (1 : Fin 2)) = false := by
    decide
  have hpressed : (⟨.switchEvents, (1 : Fin 2), (1 : Fin 2), true⟩ : MatrixCall twoByTwo) ∈
      (matrixTask corner true true cornerScan.matrix fun _ => 0).2 :=
    pressed_of_reads rfl (by decide) (by decide) hghost
  have hclosed := h [cornerScan] _ List.mem_cons_self _ hpressed rfl
  exact absurd hclosed (by unfold cornerScan IsReal; decide)

end Scan
end VialQmk
