import VialQmk.Split.Encoder

/-!
# Split.Matrix

The matrix of the other half on its way to the master: the publication and the read of `transactions.c` with its
retries, the connection check of `split_util.c`, and `matrix_post_scan`.

A scan of the master is a number of attempts, each with a read of the checksum and, on a mismatch, of the matrix. The
slave may publish before, between and after the reads, and a transfer arrives, is lost or is damaged, whatever is
reported of it.

The state also records all matrices that the slave has had in its shared memory, where the copies of the master come
from, and what reached the master otherwise.

* `half_follows`: what the master accepts and shows.
* `half_current`: a scan without errors shows the matrix of the slave.
-/

namespace VialQmk
namespace Split

abbrev Rows := List UInt8

/-- What the transfer of the matrix depends on in a build. -/
structure MatrixBuild where
  crc8 : List UInt8 → UInt8
  /-- `sizeof(split_shmem->smatrix.matrix)` -/
  size : Nat
  maxConnectionErrors : Nat
  connectionCheckTimeout : Nat

def forcedSyncThrottleMs : Nat := 100

structure SlaveMatrixSync where
  checksum : UInt8
  matrix : Rows

structure MatrixHalves where
  slaveShmem : SlaveMatrixSync
  masterShmem : SlaveMatrixSync
  lastUpdate : UInt32
  lastMatrix : Rows
  connectionErrors : UInt8
  connectionCheckTimer : UInt16
  lastConnected : Bool
  /-- The rows of the other half in the matrix of the master. -/
  thatHand : Rows
  /-- The matrices that have been in the slave's shared memory. -/
  history : List Rows
  /-- The place in it that the matrix in the master's shared memory has, if it arrived as it was. -/
  shmemFrom : Option Nat
  /-- The same of the last matrix that was accepted. -/
  lastFrom : Option Nat
  /-- The matrices that damaged transfers left. -/
  damaged : List Rows
  /-- The checksums that reached the master. -/
  checksums : List UInt8

/-- One call of `slave_matrix_handlers_master`, as the link and the slave have it. -/
structure Attempt where
  before : List Rows
  checksum : Transfer UInt8
  checksumOkay : Bool
  checkedAt : UInt32
  between : List Rows
  data : Transfer Rows
  dataOkay : Bool
  readAt : UInt32

structure Scan where
  attempts : Nat → Attempt
  /-- The other transactions leave the matrix alone. -/
  othersOkay : Bool
  after : List Rows
  now : UInt16
  failedAt : UInt16

inductive HalfStep where
  | publish (matrix : Rows)
  | scan (e : Scan)

namespace MatrixHalves

variable (b : MatrixBuild)

def zeros : Rows := .replicate b.size 0

def start : MatrixHalves where
  slaveShmem := ⟨0, zeros b⟩
  masterShmem := ⟨0, zeros b⟩
  lastUpdate := 0
  lastMatrix := zeros b
  connectionErrors := 0
  connectionCheckTimer := 0
  lastConnected := false
  thatHand := zeros b
  history := [zeros b]
  shmemFrom := some 0
  lastFrom := some 0
  damaged := []
  checksums := []

def slaveMatrixHandlersSlave (s : MatrixHalves) (matrix : Rows) : MatrixHalves :=
  { s with slaveShmem := ⟨b.crc8 matrix, matrix⟩, history := s.history ++ [matrix] }

def publishAll (s : MatrixHalves) (matrices : List Rows) : MatrixHalves := matrices.foldl (slaveMatrixHandlersSlave b) s

def receiveChecksum (s : MatrixHalves) (transfer : Transfer UInt8) : MatrixHalves :=
  let checksum := transfer.apply s.slaveShmem.checksum s.masterShmem.checksum
  { s with masterShmem := { s.masterShmem with checksum }, checksums := s.checksums ++ [checksum] }

def receiveMatrix (s : MatrixHalves) (transfer : Transfer Rows) : MatrixHalves :=
  let matrix := transfer.apply s.slaveShmem.matrix s.masterShmem.matrix
  let s := { s with masterShmem := { s.masterShmem with matrix } }
  match transfer with
  | .arrived => { s with shmemFrom := some (s.history.length - 1) }
  | .lost => s
  | .damaged x => { s with shmemFrom := none, damaged := s.damaged ++ [x] }

/-- The matrix that is read is the one in the shared memory. -/
def readIfChecksumMismatch (s : MatrixHalves) (a : Attempt) : Bool × MatrixHalves :=
  let s := receiveChecksum (publishAll b s a.before) a.checksum
  let currChecksum := s.masterShmem.checksum
  if a.checksumOkay = true ∧
      (forcedSyncThrottleMs ≤ (a.checkedAt - s.lastUpdate).toNat ∨ currChecksum ≠ b.crc8 s.masterShmem.matrix) then
    let s := receiveMatrix (publishAll b s a.between) a.data
    let okay := a.dataOkay && currChecksum == b.crc8 s.masterShmem.matrix
    (okay, if okay = true then { s with lastUpdate := a.readAt } else s)
  else (a.checksumOkay, s)

/-- `slave_matrix` is a copy of the last matrix afterwards, in each case. -/
def slaveMatrixHandlersMaster (s : MatrixHalves) (a : Attempt) : Bool × MatrixHalves :=
  let (okay, s) := readIfChecksumMismatch b s a
  (okay, if okay = true then { s with lastMatrix := s.masterShmem.matrix, lastFrom := s.shmemFrom } else s)

/-- The loop of `transaction_handler_master`, for `n` more rounds. -/
def retry (attempts : Nat → Attempt) : Nat → Nat → MatrixHalves → Bool × MatrixHalves
  | _, 0, s => (false, s)
  | iter, n + 1, s =>
    let (okay, s) := slaveMatrixHandlersMaster b s (attempts iter)
    if okay = true then (true, s) else retry attempts (iter + 1) n s

def isTransportConnected (s : MatrixHalves) : Bool := s.connectionErrors.toNat < b.maxConnectionErrors

def transactionHandlerMaster (s : MatrixHalves) (attempts : Nat → Attempt) : Bool × MatrixHalves :=
  let numRetries := if isTransportConnected b s = true then 10 else 1
  retry b attempts 1 numRetries s

def transportMaster (s : MatrixHalves) (e : Scan) : Bool × MatrixHalves :=
  let (okay, s) := transactionHandlerMaster b s e.attempts
  if okay = true then (e.othersOkay, publishAll b s e.after) else (false, s)

def countError (s : MatrixHalves) : MatrixHalves :=
  { s with connectionErrors := if s.connectionErrors < 255 then s.connectionErrors + 1 else s.connectionErrors }

def transportMasterIfConnected (s : MatrixHalves) (e : Scan) : Bool × MatrixHalves :=
  let isDisconnected := !isTransportConnected b s
  if 0 < b.maxConnectionErrors ∧ 0 < b.connectionCheckTimeout ∧ isDisconnected = true ∧
      (e.now - s.connectionCheckTimer).toNat < b.connectionCheckTimeout then (false, s)
  else
    let (okay, s) := transportMaster b s e
    if b.maxConnectionErrors = 0 then (true, s)
    else if okay = true then (true, { s with connectionErrors := 0 })
    else
      let s := countError s
      if 0 < b.connectionCheckTimeout then
        let connected := isTransportConnected b s
        (connected, if connected = true then s else { s with connectionCheckTimer := e.failedAt })
      else (true, { s with connectionErrors := 0 })

def matrixPostScan (s : MatrixHalves) (e : Scan) : Bool × MatrixHalves :=
  let (okay, s) := transportMasterIfConnected b s e
  if okay = true then
    let changed := s.thatHand != s.lastMatrix
    (changed, { s with lastConnected := true, thatHand := if changed = true then s.lastMatrix else s.thatHand })
  else if s.lastConnected = true then (true, { s with lastConnected := false, thatHand := zeros b })
  else (false, s)

def step (s : MatrixHalves) : HalfStep → MatrixHalves
  | .publish matrix => slaveMatrixHandlersSlave b s matrix
  | .scan e => (matrixPostScan b s e).2

def run (s : MatrixHalves) (steps : List HalfStep) : MatrixHalves := steps.foldl (step b) s

section Transport

variable {b} {s : MatrixHalves}

/-- A predicate that each part of `transport_master` preserves. -/
structure Preserved (b : MatrixBuild) (p : MatrixHalves → Prop) : Prop where
  publish : ∀ {s}, p s → ∀ matrix, p (slaveMatrixHandlersSlave b s matrix)
  receiveChecksum : ∀ {s}, p s → ∀ transfer, p (receiveChecksum s transfer)
  receiveMatrix : ∀ {s}, p s → ∀ transfer, p (receiveMatrix s transfer)
  lastUpdate : ∀ {s}, p s → ∀ now, p { s with lastUpdate := now }
  accept : ∀ {s}, p s → b.crc8 s.masterShmem.matrix ∈ s.checksums →
    p { s with lastMatrix := s.masterShmem.matrix, lastFrom := s.shmemFrom }

theorem publishAll_master (matrices : List Rows) : ∀ s : MatrixHalves,
    (publishAll b s matrices).masterShmem = s.masterShmem ∧ (publishAll b s matrices).checksums = s.checksums := by
  induction matrices with
  | nil => exact fun s => ⟨rfl, rfl⟩
  | cons matrix matrices ih => exact fun s => ih (slaveMatrixHandlersSlave b s matrix)

theorem receiveMatrix_checksum (s : MatrixHalves) (transfer : Transfer Rows) :
    (MatrixHalves.receiveMatrix s transfer).masterShmem.checksum = s.masterShmem.checksum ∧
      (MatrixHalves.receiveMatrix s transfer).checksums = s.checksums := by
  cases transfer <;> exact ⟨rfl, rfl⟩

namespace Preserved

variable {p : MatrixHalves → Prop}

theorem publishAll (hp : Preserved b p) (matrices : List Rows) : ∀ {s : MatrixHalves}, p s →
    p (publishAll b s matrices) := by
  induction matrices with
  | nil => exact fun h => h
  | cons matrix matrices ih => exact fun h => ih (hp.publish h matrix)

theorem read (hp : Preserved b p) (h : p s) (a : Attempt) :
    p (readIfChecksumMismatch b s a).2 ∧
      ((readIfChecksumMismatch b s a).1 = true →
        b.crc8 (readIfChecksumMismatch b s a).2.masterShmem.matrix ∈ (readIfChecksumMismatch b s a).2.checksums) := by
  have hreceived := hp.receiveChecksum (hp.publishAll a.before h) a.checksum
  have hmem : (MatrixHalves.receiveChecksum (MatrixHalves.publishAll b s a.before) a.checksum).masterShmem.checksum ∈
      (MatrixHalves.receiveChecksum (MatrixHalves.publishAll b s a.before) a.checksum).checksums :=
    List.mem_append_right _ (List.mem_singleton_self _)
  unfold readIfChecksumMismatch
  dsimp only
  generalize MatrixHalves.receiveChecksum (MatrixHalves.publishAll b s a.before) a.checksum = s₁ at hreceived hmem ⊢
  have hread := hp.receiveMatrix (hp.publishAll a.between hreceived) a.data
  have hkept := receiveMatrix_checksum (MatrixHalves.publishAll b s₁ a.between) a.data
  rw [(publishAll_master a.between s₁).1, (publishAll_master a.between s₁).2] at hkept
  generalize MatrixHalves.receiveMatrix (MatrixHalves.publishAll b s₁ a.between) a.data = s₂ at hread hkept ⊢
  by_cases hmismatch : a.checksumOkay = true ∧ (forcedSyncThrottleMs ≤ (a.checkedAt - s₁.lastUpdate).toNat ∨
      s₁.masterShmem.checksum ≠ b.crc8 s₁.masterShmem.matrix)
  · rw [if_pos hmismatch]
    by_cases hokay : (a.dataOkay && s₁.masterShmem.checksum == b.crc8 s₂.masterShmem.matrix) = true
    · have hsame := eq_of_beq ((Bool.and_eq_true _ _).mp hokay).2
      rw [if_pos hokay]
      refine ⟨hp.lastUpdate hread _, fun _ => ?_⟩
      rw [← hsame, hkept.2]
      exact hmem
    · rw [if_neg hokay]
      exact ⟨hread, fun h => absurd h hokay⟩
  · rw [if_neg hmismatch]
    refine ⟨hreceived, fun hokay => ?_⟩
    have hsame := not_or.mp fun hor => hmismatch ⟨hokay, hor⟩
    rw [← not_not.mp hsame.2]
    exact hmem

theorem handler (hp : Preserved b p) (h : p s) (a : Attempt) : p (slaveMatrixHandlersMaster b s a).2 := by
  obtain ⟨hread, hchecked⟩ := hp.read h a
  rw [slaveMatrixHandlersMaster]
  dsimp only
  split
  · rename_i hokay
    exact hp.accept hread (hchecked hokay)
  · exact hread

theorem retry (hp : Preserved b p) (attempts : Nat → Attempt) (rounds : Nat) : ∀ (iter : Nat) {s : MatrixHalves}, p s →
    p (retry b attempts iter rounds s).2 := by
  induction rounds with
  | zero => exact fun _ _ h => h
  | succ rounds ih =>
    intro iter s h
    have hstep := hp.handler h (attempts iter)
    rw [MatrixHalves.retry]
    dsimp only
    split
    · exact hstep
    · exact ih (iter + 1) hstep

theorem transport (hp : Preserved b p) (h : p s) (e : Scan) : p (transportMaster b s e).2 := by
  have hretried : p (transactionHandlerMaster b s e.attempts).2 := hp.retry _ _ _ h
  rw [transportMaster]
  dsimp only
  split
  · exact hp.publishAll e.after hretried
  · exact hretried

end Preserved

/-- A scan is throttled, or the transport changes the state and the connection check its counters. -/
theorem connected_cases (s : MatrixHalves) (e : Scan) :
    transportMasterIfConnected b s e = (false, s) ∨ ∃ okay connectionErrors connectionCheckTimer,
      transportMasterIfConnected b s e =
        (okay, { (transportMaster b s e).2 with connectionErrors, connectionCheckTimer }) := by
  unfold transportMasterIfConnected
  dsimp only
  split
  · exact .inl rfl
  · refine .inr ?_
    split
    · exact ⟨_, _, _, rfl⟩
    · split
      · exact ⟨_, _, _, rfl⟩
      · split
        · cases isTransportConnected b (countError (transportMaster b s e).2) with
          | true => exact ⟨_, _, _, rfl⟩
          | false => exact ⟨_, _, _, rfl⟩
        · exact ⟨_, _, _, rfl⟩

/-- What is counted, timed and shown does not matter to the predicate. -/
structure PreservedByRuns (b : MatrixBuild) (p : MatrixHalves → Prop) : Prop extends Preserved b p where
  counters : ∀ {s}, p s → ∀ lastUpdate connectionErrors connectionCheckTimer lastConnected thatHand,
    p { s with lastUpdate, connectionErrors, connectionCheckTimer, lastConnected, thatHand }

namespace PreservedByRuns

variable {p : MatrixHalves → Prop}

theorem connected (hp : PreservedByRuns b p) (h : p s) (e : Scan) : p (transportMasterIfConnected b s e).2 := by
  rcases connected_cases s e with heq | ⟨okay, connectionErrors, connectionCheckTimer, heq⟩
  · rw [heq]
    exact h
  · rw [heq]
    exact hp.counters (hp.transport h e) _ _ _ _ _

theorem scan (hp : PreservedByRuns b p) (h : p s) (e : Scan) : p (matrixPostScan b s e).2 := by
  have hconnected := hp.connected h e
  unfold matrixPostScan
  dsimp only
  split_ifs
  · exact hp.counters hconnected _ _ _ _ _
  · exact hp.counters hconnected _ _ _ _ _
  · exact hp.counters hconnected _ _ _ _ _
  · exact hconnected

theorem run (hp : PreservedByRuns b p) (steps : List HalfStep) : ∀ {s : MatrixHalves}, p s → p (run b s steps) := by
  induction steps with
  | nil => exact fun h => h
  | cons step steps ih =>
    intro s h
    cases step with
    | publish matrix => exact ih (hp.publish h matrix)
    | scan e => exact ih (hp.scan h e)

end PreservedByRuns

end Transport

section Copies

variable {b} {s : MatrixHalves} {n : Nat}

/-- A copy that arrived as it was is of the history, from its place `n` on; another was left by a damaged transfer, and
the one that was accepted has a checksum that reached the master. -/
structure Copies (b : MatrixBuild) (n : Nat) (s : MatrixHalves) : Prop where
  slave : s.history.getLast? = some s.slaveShmem.matrix
  floor : n < s.history.length
  shmem : ∀ i, s.shmemFrom = some i → n ≤ i ∧ s.history[i]? = some s.masterShmem.matrix
  shmemDamaged : s.shmemFrom = none → s.masterShmem.matrix ∈ s.damaged
  last : ∀ i, s.lastFrom = some i → n ≤ i ∧ s.history[i]? = some s.lastMatrix
  lastDamaged : s.lastFrom = none → s.lastMatrix ∈ s.damaged ∧ b.crc8 s.lastMatrix ∈ s.checksums
  order : ∀ i j, s.lastFrom = some i → s.shmemFrom = some j → i ≤ j

theorem start_copies (b : MatrixBuild) : Copies b 0 (start b) where
  slave := rfl
  floor := Nat.zero_lt_one
  shmem := fun i h => by cases h; exact ⟨Nat.le_refl 0, rfl⟩
  shmemDamaged := (nomatch ·)
  last := fun i h => by cases h; exact ⟨Nat.le_refl 0, rfl⟩
  lastDamaged := (nomatch ·)
  order := fun i j hi hj => by cases hi; cases hj; exact Nat.le_refl 0

theorem getElem?_snoc {α : Type} {xs : List α} {i : Nat} {x : α} (h : xs[i]? = some x) (y : α) :
    (xs ++ [y])[i]? = some x := by
  rw [List.getElem?_append_left (List.getElem?_eq_some_iff.mp h).1]
  exact h

theorem Copies.publish (h : Copies b n s) (matrix : Rows) : Copies b n (slaveMatrixHandlersSlave b s matrix) where
  slave := List.getLast?_concat
  floor := by
    rw [slaveMatrixHandlersSlave, List.length_append]
    exact Nat.lt_add_right 1 h.floor
  shmem := fun i hi => ⟨(h.shmem i hi).1, getElem?_snoc (h.shmem i hi).2 matrix⟩
  shmemDamaged := h.shmemDamaged
  last := fun i hi => ⟨(h.last i hi).1, getElem?_snoc (h.last i hi).2 matrix⟩
  lastDamaged := h.lastDamaged
  order := h.order

theorem Copies.receiveChecksum (h : Copies b n s) (transfer : Transfer UInt8) :
    Copies b n (receiveChecksum s transfer) :=
  ⟨h.slave, h.floor, h.shmem, h.shmemDamaged, h.last,
    fun hnone => ⟨(h.lastDamaged hnone).1, List.mem_append_left _ (h.lastDamaged hnone).2⟩, h.order⟩

theorem Copies.receiveMatrix (h : Copies b n s) (transfer : Transfer Rows) : Copies b n (receiveMatrix s transfer) := by
  have hlength := h.floor
  cases transfer with
  | arrived =>
    refine ⟨h.slave, h.floor, fun i hi => ?_, fun hnone => (nomatch hnone), h.last, h.lastDamaged, fun i j hi hj => ?_⟩
    · cases hi
      refine ⟨Nat.le_sub_one_of_lt h.floor, ?_⟩
      have hslave := h.slave
      rw [List.getLast?_eq_getElem?] at hslave
      exact hslave
    · cases hj
      have hlt := (List.getElem?_eq_some_iff.mp (h.last i hi).2).1
      exact Nat.le_sub_one_of_lt hlt
  | lost => exact h
  | damaged x =>
    refine ⟨h.slave, h.floor, fun _ hi => (nomatch hi), fun _ => List.mem_append_right _ (List.mem_singleton_self x),
      h.last, fun hnone => ?_, fun _ _ _ hj => (nomatch hj)⟩
    exact ⟨List.mem_append_left _ (h.lastDamaged hnone).1, (h.lastDamaged hnone).2⟩

theorem Copies.accept (h : Copies b n s) (hchecked : b.crc8 s.masterShmem.matrix ∈ s.checksums) :
    Copies b n { s with lastMatrix := s.masterShmem.matrix, lastFrom := s.shmemFrom } :=
  ⟨h.slave, h.floor, h.shmem, h.shmemDamaged, h.shmem, fun hnone => ⟨h.shmemDamaged hnone, hchecked⟩,
    fun _ _ hi hj => Nat.le_of_eq (Option.some.inj (hi.symm.trans hj))⟩

theorem Copies.counters (h : Copies b n s) (lastUpdate : UInt32) (connectionErrors : UInt8)
    (connectionCheckTimer : UInt16) (lastConnected : Bool) (thatHand : Rows) :
    Copies b n { s with lastUpdate, connectionErrors, connectionCheckTimer, lastConnected, thatHand } :=
  ⟨h.slave, h.floor, h.shmem, h.shmemDamaged, h.last, h.lastDamaged, h.order⟩

theorem copies_preserved (b : MatrixBuild) (n : Nat) : PreservedByRuns b (Copies b n) where
  publish := Copies.publish
  receiveChecksum := Copies.receiveChecksum
  receiveMatrix := Copies.receiveMatrix
  lastUpdate := fun h _ => h.counters _ _ _ _ _
  accept := Copies.accept
  counters := Copies.counters

end Copies

section Shown

variable {b} {s : MatrixHalves}

theorem shown_preserved (b : MatrixBuild) (s₀ : MatrixHalves) :
    Preserved b fun s => s.lastConnected = s₀.lastConnected ∧ s.thatHand = s₀.thatHand ∧
      s.connectionErrors = s₀.connectionErrors where
  publish := fun h _ => h
  receiveChecksum := fun h _ => h
  receiveMatrix := fun h transfer => by cases transfer <;> exact h
  lastUpdate := fun h _ => h
  accept := fun h _ => h

theorem connected_shown (s : MatrixHalves) (e : Scan) :
    (transportMasterIfConnected b s e).2.lastConnected = s.lastConnected ∧
      (transportMasterIfConnected b s e).2.thatHand = s.thatHand := by
  rcases connected_cases s e with heq | ⟨okay, connectionErrors, connectionCheckTimer, heq⟩
  · rw [heq]
    exact ⟨rfl, rfl⟩
  · rw [heq]
    obtain ⟨hlast, hthat, -⟩ := (shown_preserved b s).transport ⟨rfl, rfl, rfl⟩ e
    exact ⟨hlast, hthat⟩

/-- While the other half is connected its last matrix is shown, and no key of it otherwise. -/
def Shown (b : MatrixBuild) (s : MatrixHalves) : Prop :=
  s.thatHand = if s.lastConnected = true then s.lastMatrix else zeros b

theorem scan_eq (h : Shown b s) (e : Scan) :
    (matrixPostScan b s e).2 =
      { (transportMasterIfConnected b s e).2 with
        lastConnected := (transportMasterIfConnected b s e).1
        thatHand := if (transportMasterIfConnected b s e).1 = true then (transportMasterIfConnected b s e).2.lastMatrix
          else zeros b } := by
  have hkeeps : (transportMasterIfConnected b s e).2.lastConnected = _ ∧ _ := connected_shown s e
  rw [matrixPostScan]
  dsimp only
  generalize transportMasterIfConnected b s e = result at hkeeps ⊢
  obtain ⟨okay, s'⟩ := result
  cases okay with
  | true =>
    by_cases hchanged : s'.thatHand = s'.lastMatrix
    · simp [hchanged]
    · simp [hchanged]
  | false =>
    rw [Shown, ← hkeeps.1, ← hkeeps.2] at h
    cases hlast : s'.lastConnected with
    | true => simp
    | false =>
      dsimp only at h
      rw [hlast, if_neg Bool.false_ne_true] at h
      simp only [Bool.false_eq_true, if_false]
      rw [← h, ← hlast]

theorem run_shown (steps : List HalfStep) : ∀ {s : MatrixHalves}, Shown b s → Shown b (run b s steps) := by
  induction steps with
  | nil => exact fun h => h
  | cons step steps ih =>
    intro s h
    cases step with
    | publish matrix => exact ih h
    | scan e =>
      refine ih ?_
      show Shown b (matrixPostScan b s e).2
      rw [scan_eq h e]
      exact rfl

/-- In every run, what was accepted last is the matrix of the slave at some time, or a damaged one whose checksum
reached the master. The places in the history do not go back, and the other half is shown as accepted or as released. -/
theorem half_follows (b : MatrixBuild) (steps : List HalfStep) :
    let s := run b (start b) steps
    (∀ i, s.lastFrom = some i → s.history[i]? = some s.lastMatrix) ∧
      (s.lastFrom = none → s.lastMatrix ∈ s.damaged ∧ b.crc8 s.lastMatrix ∈ s.checksums) ∧
      (∀ more i j, s.lastFrom = some i → (run b s more).lastFrom = some j → i ≤ j) ∧
      s.thatHand = (if s.lastConnected = true then s.lastMatrix else zeros b) := by
  intro s
  have h : Copies b 0 s := (copies_preserved b 0).run steps (start_copies b)
  refine ⟨fun i hi => (h.last i hi).2, h.lastDamaged, fun more i j hi hj => ?_, run_shown steps rfl⟩
  -- from now on all copies are of the place `i` or a later one
  have hfloor : Copies b i s := by
    refine ⟨h.slave, (List.getElem?_eq_some_iff.mp (h.last i hi).2).1,
      fun k hk => ⟨h.order i k hi hk, (h.shmem k hk).2⟩, h.shmemDamaged, fun k hk => ?_, h.lastDamaged, h.order⟩
    cases hi.symm.trans hk
    exact ⟨Nat.le_refl i, (h.last i hi).2⟩
  exact (((copies_preserved b i).run more hfloor).last j hj).1

end Shown

section Clean

variable {b} {s : MatrixHalves}

def Published (b : MatrixBuild) (s : MatrixHalves) : Prop := s.slaveShmem.checksum = b.crc8 s.slaveShmem.matrix

theorem published_preserved (b : MatrixBuild) :
    PreservedByRuns b fun s => s.history = [zeros b] ∨ Published b s where
  publish := fun _ _ => .inr rfl
  receiveChecksum := fun h _ => h
  receiveMatrix := fun h transfer => by cases transfer <;> exact h
  lastUpdate := fun h _ => h
  accept := fun h _ => h
  counters := fun h _ _ _ _ _ => h

theorem publishAll_published (h : Published b s) (matrices : List Rows) :
    Published b (publishAll b s matrices) ∧ (publishAll b s matrices).lastUpdate = s.lastUpdate := by
  induction matrices generalizing s with
  | nil => exact ⟨h, rfl⟩
  | cons matrix matrices ih => exact ih (s := slaveMatrixHandlersSlave b s matrix) rfl

theorem publishAll_lastMatrix (matrices : List Rows) : ∀ s : MatrixHalves,
    (publishAll b s matrices).lastMatrix = s.lastMatrix := by
  induction matrices with
  | nil => exact fun _ => rfl
  | cons matrix matrices ih => exact fun s => ih (slaveMatrixHandlersSlave b s matrix)

theorem publishAll_slave (matrices : List Rows) : ∀ {s s' : MatrixHalves}, s.slaveShmem = s'.slaveShmem →
    (publishAll b s matrices).slaveShmem = (publishAll b s' matrices).slaveShmem := by
  induction matrices with
  | nil => exact fun h => h
  | cons matrix matrices ih => exact fun _ => ih rfl

/-- The matrix that the slave has when the master reads its checksum. -/
def offered (b : MatrixBuild) (s : MatrixHalves) (a : Attempt) : Rows := (publishAll b s a.before).slaveShmem.matrix

def fetched (b : MatrixBuild) (s : MatrixHalves) (a : Attempt) : Rows :=
  (publishAll b (publishAll b s a.before) a.between).slaveShmem.matrix

/-- Everything arrives, and what the slave has published between the two reads passes the checksum. -/
structure Clean (b : MatrixBuild) (s : MatrixHalves) (a : Attempt) : Prop where
  checksum : a.checksum = .arrived
  checksumOkay : a.checksumOkay = true
  passes : b.crc8 (fetched b s a) = b.crc8 (offered b s a)
  data : a.data = .arrived
  dataOkay : a.dataOkay = true

/-- A matrix with the same checksum is taken for the one of the slave while the throttle lasts. -/
def Current (b : MatrixBuild) (s : MatrixHalves) (a : Attempt) (matrix : Rows) : Prop :=
  matrix = fetched b s a ∨
    (b.crc8 matrix = b.crc8 (offered b s a) ∧ (a.checkedAt - s.lastUpdate).toNat < forcedSyncThrottleMs)

theorem handler_clean (hpublished : Published b s) {a : Attempt} (ha : Clean b s a) :
    (slaveMatrixHandlersMaster b s a).1 = true ∧ Current b s a (slaveMatrixHandlersMaster b s a).2.lastMatrix := by
  obtain ⟨hchecksum, hupdate⟩ := publishAll_published hpublished a.before
  have hpasses := ha.passes
  have hread : (readIfChecksumMismatch b s a).1 = true ∧
      Current b s a (readIfChecksumMismatch b s a).2.masterShmem.matrix := by
    unfold readIfChecksumMismatch Current
    unfold fetched offered at hpasses ⊢
    rw [← hupdate]
    generalize publishAll b s a.before = s₁ at hchecksum hpasses ⊢
    rw [Published] at hchecksum
    have hreceived : (receiveChecksum s₁ a.checksum).masterShmem.checksum = b.crc8 s₁.slaveShmem.matrix := by
      rw [ha.checksum]
      exact hchecksum
    have hmatrix : (receiveMatrix (publishAll b (receiveChecksum s₁ a.checksum) a.between) a.data).masterShmem.matrix =
        (publishAll b s₁ a.between).slaveShmem.matrix := by
      have hslave : (publishAll b (receiveChecksum s₁ a.checksum) a.between).slaveShmem =
          (publishAll b s₁ a.between).slaveShmem := publishAll_slave a.between rfl
      rw [ha.data, ← hslave]
      rfl
    dsimp only
    rw [hreceived, hmatrix, hpasses, ha.checksumOkay, ha.dataOkay, BEq.rfl]
    split
    · exact ⟨rfl, .inl hmatrix⟩
    · rename_i hmatch
      obtain ⟨hrecent, hsame⟩ := not_or.mp fun hor => hmatch ⟨rfl, hor⟩
      exact ⟨rfl, .inr ⟨(not_not.mp hsame).symm, Nat.not_le.mp hrecent⟩⟩
  rw [slaveMatrixHandlersMaster]
  dsimp only
  rw [if_pos hread.1]
  exact hread

theorem transport_clean (hpublished : Published b s) {e : Scan} (he : Clean b s (e.attempts 1)) :
    Current b s (e.attempts 1) (transportMaster b s e).2.lastMatrix := by
  obtain ⟨hokay, hcurrent⟩ := handler_clean hpublished he
  have hfirst : ∀ n, retry b e.attempts 1 (n + 1) s = (true, (slaveMatrixHandlersMaster b s (e.attempts 1)).2) := by
    intro n
    rw [retry]
    dsimp only
    rw [if_pos hokay]
  have hretried : transactionHandlerMaster b s e.attempts =
      (true, (slaveMatrixHandlersMaster b s (e.attempts 1)).2) := by
    rw [transactionHandlerMaster]
    split
    · exact hfirst 9
    · exact hfirst 0
  rw [transportMaster, hretried]
  dsimp only
  rw [if_pos rfl, publishAll_lastMatrix]
  exact hcurrent

theorem scan_clean (hshown : Shown b s) (hpublished : Published b s) {e : Scan} (he : Clean b s (e.attempts 1))
    (hconnected : (matrixPostScan b s e).2.lastConnected = true) :
    Current b s (e.attempts 1) (matrixPostScan b s e).2.thatHand := by
  rw [scan_eq hshown] at hconnected ⊢
  dsimp only at hconnected ⊢
  rw [if_pos hconnected]
  rcases connected_cases s e with heq | ⟨okay, connectionErrors, connectionCheckTimer, heq⟩
  · rw [heq] at hconnected
    cases hconnected
  · rw [heq]
    exact transport_clean hpublished he

/-- After a scan whose first attempt meets no error the master shows the matrix that the slave had when it was read, or
one of the same checksum while the last read is less than the throttle ago. -/
theorem half_current (b : MatrixBuild) (steps : List HalfStep) (e : Scan)
    (hpublished : 1 < (run b (start b) steps).history.length)
    (he : Clean b (run b (start b) steps) (e.attempts 1))
    (hconnected : (matrixPostScan b (run b (start b) steps) e).2.lastConnected = true) :
    Current b (run b (start b) steps) (e.attempts 1) (matrixPostScan b (run b (start b) steps) e).2.thatHand := by
  have hshown : Shown b (run b (start b) steps) := run_shown steps rfl
  refine scan_clean hshown ?_ he hconnected
  refine ((published_preserved b).run steps (.inl rfl)).resolve_left fun hnone => ?_
  rw [hnone] at hpublished
  exact absurd hpublished (Nat.lt_irrefl 1)

/-- The slave publishes before the scan's reads, and the same matrix again between them. -/
def cleanAttempt : Attempt := ⟨[[3, 0]], .arrived, true, 100, [[3, 0]], .arrived, true, 100⟩

/-- Two keys of the slave reach the master. -/
theorem half_current_published :
    let b : MatrixBuild := ⟨Split.crc8, 2, 10, 500⟩
    let s := run b (start b) [.publish [1, 0]]
    let e : Scan := ⟨fun _ => cleanAttempt, true, [], 0, 0⟩
    Current b s cleanAttempt (matrixPostScan b s e).2.thatHand ∧ (matrixPostScan b s e).2.thatHand = [3, 0] := by
  intro b s e
  exact ⟨half_current b [.publish [1, 0]] e (by decide) ⟨rfl, rfl, by decide +kernel, rfl, rfl⟩ (by decide +kernel),
    by decide +kernel⟩

end Clean

end MatrixHalves

end Split
end VialQmk
