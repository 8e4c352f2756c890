import VialQmk.Split.Matrix

/-!
# Split.MatrixLost

The other half of a split keyboard when the link to it is lost: scans that fail are counted, and the connection check
takes the half for disconnected.

* `scan_lost`: a failing scan counts as an error until the half is taken for disconnected.
* `released_iff`: the keys of the half are released after so many failing scans, if the check and its throttle are on.
-/

namespace VialQmk
namespace Split

namespace MatrixHalves

section Lost

variable {b} {s : MatrixHalves}

def Lost (e : Scan) : Prop := ∀ i, (e.attempts i).checksumOkay = false

/-- So many scans in a row that fail end with all keys of the other half released. -/
def Releases (b : MatrixBuild) : Prop :=
  ∀ (steps : List HalfStep) (lost : List Scan), (∀ e ∈ lost, Lost e) → b.maxConnectionErrors ≤ lost.length →
    (run b (start b) (steps ++ lost.map .scan)).thatHand = zeros b

theorem handler_lost {a : Attempt} (ha : a.checksumOkay = false) :
    (slaveMatrixHandlersMaster b s a).1 = false ∧ (slaveMatrixHandlersMaster b s a).2.lastMatrix = s.lastMatrix := by
  have hread : readIfChecksumMismatch b s a = (false, receiveChecksum (publishAll b s a.before) a.checksum) := by
    unfold readIfChecksumMismatch
    dsimp only
    rw [ha, if_neg fun h => absurd h.1 Bool.false_ne_true]
  rw [slaveMatrixHandlersMaster, hread]
  exact ⟨rfl, publishAll_lastMatrix _ _⟩

theorem retry_lost {attempts : Nat → Attempt} (h : ∀ i, (attempts i).checksumOkay = false) (rounds : Nat) :
    ∀ (iter : Nat) (s : MatrixHalves), (retry b attempts iter rounds s).1 = false ∧
      (retry b attempts iter rounds s).2.lastMatrix = s.lastMatrix := by
  induction rounds with
  | zero => exact fun _ _ => ⟨rfl, rfl⟩
  | succ rounds ih =>
    intro iter s
    obtain ⟨hfails, hlast⟩ := handler_lost (b := b) (s := s) (h iter)
    obtain ⟨hrest, hkept⟩ := ih (iter + 1) (slaveMatrixHandlersMaster b s (attempts iter)).2
    rw [retry]
    dsimp only
    rw [if_neg (by rw [hfails]; exact Bool.false_ne_true)]
    exact ⟨hrest, hkept.trans hlast⟩

theorem transport_lost {e : Scan} (he : Lost e) :
    (transportMaster b s e).1 = false ∧ (transportMaster b s e).2.lastMatrix = s.lastMatrix ∧
      (transportMaster b s e).2.connectionErrors = s.connectionErrors := by
  have hretried : (transactionHandlerMaster b s e.attempts).1 = false ∧
      (transactionHandlerMaster b s e.attempts).2.lastMatrix = s.lastMatrix := retry_lost he _ _ _
  have herrors := ((shown_preserved b s).transport ⟨rfl, rfl, rfl⟩ e).2.2
  have heq : transportMaster b s e = (false, (transactionHandlerMaster b s e.attempts).2) := by
    rw [transportMaster]
    dsimp only
    rw [if_neg (by rw [hretried.1]; exact Bool.false_ne_true)]
  exact ⟨congrArg Prod.fst heq, by rw [heq]; exact hretried.2, herrors⟩

def Checks (b : MatrixBuild) : Prop :=
  0 < b.maxConnectionErrors ∧ b.maxConnectionErrors ≤ 255 ∧ 0 < b.connectionCheckTimeout

theorem countError_toNat (s : MatrixHalves) :
    (countError s).connectionErrors.toNat = min 255 (s.connectionErrors.toNat + 1) := by
  have hlt := s.connectionErrors.toNat_lt
  rw [countError]
  dsimp only
  split
  · rename_i hless
    have hless : s.connectionErrors.toNat < 255 := hless
    rw [UInt8.toNat_add, show (1 : UInt8).toNat = 1 from rfl]
    omega
  · rename_i hfull
    have hfull : ¬ s.connectionErrors.toNat < 255 := hfull
    omega

theorem scan_lost (hb : Checks b) (hshown : Shown b s) {e : Scan} (he : Lost e) :
    (matrixPostScan b s e).2.lastConnected = isTransportConnected b (matrixPostScan b s e).2 ∧
      min (s.connectionErrors.toNat + 1) b.maxConnectionErrors ≤
        (matrixPostScan b s e).2.connectionErrors.toNat := by
  obtain ⟨hmax, hbound, htimeout⟩ := hb
  obtain ⟨hfails, -, herrors⟩ := transport_lost (b := b) (s := s) he
  rw [scan_eq hshown]
  have hconnected : (transportMasterIfConnected b s e).1 = isTransportConnected b (transportMasterIfConnected b s e).2 ∧
      min (s.connectionErrors.toNat + 1) b.maxConnectionErrors ≤
        (transportMasterIfConnected b s e).2.connectionErrors.toNat := by
    have hcount := countError_toNat (transportMaster b s e).2
    rw [herrors] at hcount
    unfold transportMasterIfConnected
    dsimp only
    split
    · rename_i hthrottled
      have hdisconnected : isTransportConnected b s = false := by simpa using hthrottled.2.2.1
      refine ⟨hdisconnected.symm, ?_⟩
      have hmany : ¬ s.connectionErrors.toNat < b.maxConnectionErrors := of_decide_eq_false hdisconnected
      exact Nat.le_trans (Nat.min_le_right _ _) (Nat.not_lt.mp hmany)
    · have hnot : ¬ (transportMaster b s e).1 = true := by
        rw [hfails]
        exact Bool.false_ne_true
      rw [if_neg (Nat.ne_of_gt hmax), if_neg hnot]
      have hless : min (s.connectionErrors.toNat + 1) b.maxConnectionErrors ≤
          (countError (transportMaster b s e).2).connectionErrors.toNat := by omega
      cases hafter : isTransportConnected b (countError (transportMaster b s e).2) with
      | true => exact ⟨hafter.symm, hless⟩
      | false => exact ⟨hafter.symm, hless⟩
  exact hconnected

theorem run_lost (hb : Checks b) (lost : List Scan) : ∀ {s : MatrixHalves}, Shown b s → (∀ e ∈ lost, Lost e) →
    (lost ≠ [] → (run b s (lost.map .scan)).lastConnected = isTransportConnected b (run b s (lost.map .scan))) ∧
      min (s.connectionErrors.toNat + lost.length) b.maxConnectionErrors ≤
        (run b s (lost.map .scan)).connectionErrors.toNat := by
  induction lost with
  | nil => exact fun _ _ => ⟨fun h => absurd rfl h, Nat.min_le_left _ _⟩
  | cons e lost ih =>
    intro s hshown h
    obtain ⟨he, hrest⟩ := List.forall_mem_cons.mp h
    obtain ⟨hlast, hcount⟩ := scan_lost hb hshown he
    have hshown' : Shown b (matrixPostScan b s e).2 := run_shown [.scan e] hshown
    obtain ⟨hend, hmore⟩ := ih hshown' hrest
    have hrun : run b s ((e :: lost).map .scan) = run b (matrixPostScan b s e).2 (lost.map .scan) := rfl
    rw [hrun, List.length_cons]
    refine ⟨fun _ => ?_, by omega⟩
    cases lost with
    | nil => exact hlast
    | cons e' lost => exact hend (List.cons_ne_nil _ _)

theorem always_connected (hb : ¬ Checks b) (s : MatrixHalves) (e : Scan) :
    (transportMasterIfConnected b s e).1 = true := by
  have hcase : b.maxConnectionErrors = 0 ∨ 255 < b.maxConnectionErrors ∨ b.connectionCheckTimeout = 0 := by
    unfold Checks at hb
    omega
  have hcounts : 255 < b.maxConnectionErrors → ∀ s : MatrixHalves, isTransportConnected b s = true := by
    intro hlarge s
    have hlt := s.connectionErrors.toNat_lt
    exact decide_eq_true (show s.connectionErrors.toNat < b.maxConnectionErrors by omega)
  unfold transportMasterIfConnected
  dsimp only
  rw [if_neg ?_]
  · split
    · rfl
    · split
      · rfl
      · split
        · rename_i hmax _ htimeout
          exact hcounts (by omega) _
        · rfl
  · rintro ⟨hmax, htimeout, hdisconnected, -⟩
    rw [hcounts (by omega)] at hdisconnected
    cases hdisconnected

theorem run_kept (hb : ¬ Checks b) (lost : List Scan) : ∀ {s : MatrixHalves}, Shown b s → s.thatHand = s.lastMatrix →
    (∀ e ∈ lost, Lost e) → (run b s (lost.map .scan)).thatHand = s.thatHand := by
  induction lost with
  | nil => exact fun _ _ _ => rfl
  | cons e lost ih =>
    intro s hshown hlast h
    obtain ⟨he, hrest⟩ := List.forall_mem_cons.mp h
    have hthat : (matrixPostScan b s e).2.thatHand = s.lastMatrix ∧
        (matrixPostScan b s e).2.lastMatrix = s.lastMatrix := by
      have hconnected := always_connected hb s e
      rw [scan_eq hshown]
      dsimp only
      rw [if_pos hconnected]
      rcases connected_cases s e with heq | ⟨okay, connectionErrors, connectionCheckTimer, heq⟩
      · rw [heq]
        exact ⟨rfl, rfl⟩
      · rw [heq]
        exact ⟨(transport_lost he).2.1, (transport_lost he).2.1⟩
    have hrun := ih (run_shown [.scan e] hshown) (hthat.1.trans hthat.2.symm) hrest
    exact hrun.trans (hthat.1.trans hlast.symm)

def arrivedAttempt : Attempt := ⟨[], .arrived, true, 100, [], .arrived, true, 100⟩

/-- Without the check a key of the other half is shown, and stays through any number of lost scans. -/
theorem not_released (hb : ¬ Checks b) (key : Rows) (lost : List Scan) (h : ∀ e ∈ lost, Lost e) :
    (run b (start b) ([.publish key, .scan ⟨fun _ => arrivedAttempt, true, [], 0, 0⟩] ++ lost.map .scan)).thatHand =
      key := by
  let clean : Scan := ⟨fun _ => arrivedAttempt, true, [], 0, 0⟩
  let pressed := run b (start b) [.publish key]
  have hconnected := always_connected hb pressed clean
  have hshown : Shown b pressed := run_shown _ rfl
  have hscan := scan_eq hshown clean
  have hlast : (matrixPostScan b pressed clean).2.lastConnected = true := by
    rw [hscan]
    exact hconnected
  have hthat : (matrixPostScan b pressed clean).2.thatHand = key := by
    have hcurrent := scan_clean hshown rfl ⟨rfl, rfl, rfl, rfl, rfl⟩ hlast
    exact hcurrent.resolve_right fun h => absurd h.2 (show ¬ (100 - 0 : UInt32).toNat < 100 by decide)
  have hsame : (matrixPostScan b pressed clean).2.thatHand = (matrixPostScan b pressed clean).2.lastMatrix := by
    rw [hscan]
    exact if_pos hconnected
  exact (run_kept hb lost (run_shown [.scan clean] hshown) hsame h).trans hthat

def lostAttempt : Attempt := ⟨[], .lost, false, 0, [], .lost, false, 0⟩

theorem not_releases (hsize : 0 < b.size) (hb : ¬ Checks b) : ¬ Releases b := by
  intro hreleases
  let lost : Scan := ⟨fun _ => lostAttempt, true, [], 0, 0⟩
  have hlost : ∀ e ∈ List.replicate b.maxConnectionErrors lost, Lost e := fun e he =>
    List.eq_of_mem_replicate he ▸ fun _ => rfl
  have hkept := not_released hb (.replicate b.size 1) _ hlost
  have hreleased := hreleases [.publish (.replicate b.size 1), .scan ⟨fun _ => arrivedAttempt, true, [], 0, 0⟩] _ hlost
    (Nat.le_of_eq List.length_replicate.symm)
  rcases (List.replicate_inj.mp (hkept.symm.trans hreleased)).2 with hnone | hone
  · exact absurd hnone (Nat.ne_of_gt hsize)
  · exact absurd hone (by decide)

/-- The keys of the other half are released after a lost link if and only if the check of the connection is on, can
count up to its bound, and connection attempts are throttled. -/
theorem released_iff (b : MatrixBuild) (hsize : 0 < b.size) :
    Releases b ↔ 0 < b.maxConnectionErrors ∧ b.maxConnectionErrors ≤ 255 ∧ 0 < b.connectionCheckTimeout := by
  constructor
  · exact fun hreleases => by_contra fun hb => not_releases hsize hb hreleases
  · intro hb steps lost hlost hlength
    have hshown : Shown b (run b (start b) steps) := run_shown steps rfl
    obtain ⟨hend, hcount⟩ := run_lost hb lost hshown hlost
    have hrun : run b (start b) (steps ++ lost.map .scan) = run b (run b (start b) steps) (lost.map .scan) :=
      List.foldl_append
    have hsome : lost ≠ [] := by
      rintro rfl
      exact absurd hb.1 (Nat.not_lt.mpr hlength)
    have hdisconnected : isTransportConnected b (run b (run b (start b) steps) (lost.map .scan)) = false := by
      refine decide_eq_false ?_
      omega
    have hfinal : Shown b (run b (run b (start b) steps) (lost.map .scan)) := run_shown _ hshown
    rw [hrun, hfinal, hend hsome, hdisconnected]
    rfl

/-- A build with the check but without the throttle keeps the keys of a half that is gone. -/
theorem released_iff_unthrottled : ¬ Releases ⟨Split.crc8, 5, 10, 0⟩ := fun h =>
  absurd ((released_iff ⟨Split.crc8, 5, 10, 0⟩ (by decide)).mp h).2.2 (by decide)

end Lost

end MatrixHalves

end Split
end VialQmk
