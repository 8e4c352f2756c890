import VialQmk.Split.Encoder
import VialQmk.Lib.Mem

/-!
# Split.Rpc

The remote calls between the halves (`transactions.c`), on the slave: what the sizes and the transaction id that come
over the wire are used for.

* `slaveRpcInfoCallback`, `slaveRpcExecCallback`: the two callbacks, and `reactToTransaction` in front of them.
* `StepsFit`: no block that is acted on has a length beyond its buffer or an id in front of the table.
* `rpc_bounded_iff`: the run stays within the buffers and the table exactly for these blocks.
-/

namespace VialQmk
namespace Split

open Lib

/-- The transactions and the buffers of a board. `crc8` is weak: a board may have its own. -/
structure RpcConfig where
  putRpcInfo : Nat
  numTotalTransactions : Nat
  ids_lt : putRpcInfo + 3 < numTotalTransactions
  numTotal_le : numTotalTransactions ≤ 32
  rpcM2sBufferSize : Nat
  m2s_le : rpcM2sBufferSize ≤ 255
  rpcS2mBufferSize : Nat
  s2m_le : rpcS2mBufferSize ≤ 255
  /-- Where `rpc_info` lies in `split_shmem`; the buffers are behind it. -/
  infoOffset : Nat
  crc8 : List UInt8 → UInt8

namespace RpcConfig

variable (cfg : RpcConfig)

def putRpcReqData : Nat := cfg.putRpcInfo + 1

def executeRpc : Nat := cfg.putRpcInfo + 2

def getRpcRespData : Nat := cfg.putRpcInfo + 3

def m2sOffset : Nat := cfg.infoOffset + 4

def s2mOffset : Nat := cfg.m2sOffset + cfg.rpcM2sBufferSize

end RpcConfig

/-- Another callback is given its two lengths, and does what it likes to the shared memory. -/
inductive SlaveCallback where
  | rpcInfo
  | rpcExec
  | other (run : UInt8 → UInt8 → Mem UInt8 → Mem UInt8)

structure SplitTransactionDesc where
  initiator2targetBufferSize : UInt8
  initiator2targetOffset : Nat
  target2initiatorBufferSize : UInt8
  target2initiatorOffset : Nat
  slaveCallback : Option SlaveCallback

structure RpcState where
  table : Nat → SplitTransactionDesc
  shmem : Mem UInt8

inductive RpcEvent where
  | installed (m2s s2m : UInt8)
  | indexed (id : Int)
  | invoked (m2s s2m : UInt8)
  deriving DecidableEq

section Code

variable (cfg : RpcConfig)

def m2sLength (s : RpcState) : UInt8 := s.shmem (cfg.infoOffset + 2)

def s2mLength (s : RpcState) : UInt8 := s.shmem (cfg.infoOffset + 3)

/-- The checksum that came with the payload is that of the payload. -/
def ChecksumOk (s : RpcState) : Prop := cfg.crc8 (s.shmem.readBlock (cfg.infoOffset + 1) 3) = s.shmem cfg.infoOffset
deriving Decidable

def transactionId (s : RpcState) : Int := (s.shmem (cfg.infoOffset + 1)).toInt8.toInt

def slaveRpcInfoCallback (s : RpcState) : List RpcEvent × RpcState :=
  let request := s.table cfg.putRpcReqData
  let table := Function.update s.table cfg.putRpcReqData
    { request with initiator2targetBufferSize := m2sLength cfg s }
  let response := table cfg.getRpcRespData
  let table := Function.update table cfg.getRpcRespData
    { response with target2initiatorBufferSize := s2mLength cfg s }
  ([.installed (m2sLength cfg s) (s2mLength cfg s)], { s with table := table })

def invoke (exec : RpcState → List RpcEvent × RpcState) (m2s s2m : UInt8) (s : RpcState) :
    SlaveCallback → List RpcEvent × RpcState
  | .rpcInfo => slaveRpcInfoCallback cfg s
  | .rpcExec => exec s
  | .other run => ([], { s with shmem := run m2s s2m s.shmem })

/-- It may be told to invoke itself, as deep as the stack goes. -/
def slaveRpcExecCallback : Nat → RpcState → List RpcEvent × RpcState
  | 0, s => ([], s)
  | depth + 1, s =>
    if ¬ ChecksumOk cfg s then ([], s)
    else if transactionId cfg s < cfg.numTotalTransactions then
      -- What lies in front of the table is not known.
      if transactionId cfg s < 0 then ([.indexed (transactionId cfg s)], s)
      else
        match (s.table (transactionId cfg s).toNat).slaveCallback with
        | none => ([.indexed (transactionId cfg s)], s)
        | some callback =>
          let invoked := invoke cfg (slaveRpcExecCallback depth) (m2sLength cfg s) (s2mLength cfg s) s callback
          (.indexed (transactionId cfg s) :: .invoked (m2sLength cfg s) (s2mLength cfg s) :: invoked.1, invoked.2)
    else ([], s)

def receive (desc : SplitTransactionDesc) (received : List UInt8) (s : RpcState) : RpcState :=
  { s with
    shmem := s.shmem.writeBlock desc.initiator2targetOffset
      (received.take desc.initiator2targetBufferSize.toNat) }

/-- `react_to_transaction`, for the bytes that arrive before the line breaks or the request is complete. -/
def reactToTransaction (depth : Nat) (id : UInt8) (received : List UInt8) (s : RpcState) :
    List RpcEvent × RpcState :=
  if cfg.numTotalTransactions ≤ id.toNat then ([], s)
  else
    let desc := s.table id.toNat
    let s := receive desc received s
    if received.length < desc.initiator2targetBufferSize.toNat then ([], s)
    else
      match desc.slaveCallback with
      | none => ([], s)
      | some callback =>
        -- The driver hands over the same size twice.
        invoke cfg (slaveRpcExecCallback cfg depth) desc.initiator2targetBufferSize desc.initiator2targetBufferSize s
          callback

def transactionRegisterRpc (id : Nat) (run : UInt8 → UInt8 → Mem UInt8 → Mem UInt8) (s : RpcState) : RpcState :=
  if id ≤ cfg.getRpcRespData then s
  else
    let desc := s.table id
    { s with
      table := Function.update s.table id
        { desc with
          slaveCallback := some (.other run)
          initiator2targetOffset := cfg.m2sOffset
          target2initiatorOffset := cfg.s2mOffset } }

inductive RpcStep where
  | react (id : UInt8) (received : List UInt8)
  | register (id : Fin cfg.numTotalTransactions) (run : UInt8 → UInt8 → Mem UInt8 → Mem UInt8)

variable {cfg}

def RpcStep.exec (depth : Nat) (s : RpcState) : RpcStep cfg → List RpcEvent × RpcState
  | .react id received => reactToTransaction cfg depth id received s
  | .register id run => ([], transactionRegisterRpc cfg id run s)

def runRpc (depth : Nat) : RpcState → List (RpcStep cfg) → List RpcEvent × RpcState
  | s, [] => ([], s)
  | s, step :: steps =>
    let first := step.exec depth s
    let rest := runRpc depth first.2 steps
    (first.1 ++ rest.1, rest.2)

variable (cfg)

/-- The table at start-up; the other transactions are those of the board, and have callbacks of their own. -/
def rpcTable (board : Nat → SplitTransactionDesc) (id : Nat) : SplitTransactionDesc :=
  if id = cfg.putRpcInfo then ⟨4, cfg.infoOffset, 0, 0, some .rpcInfo⟩
  else if id = cfg.putRpcReqData then ⟨UInt8.ofNat cfg.rpcM2sBufferSize, cfg.m2sOffset, 0, 0, none⟩
  else if id = cfg.executeRpc then ⟨1, cfg.infoOffset + 1, 0, 0, some .rpcExec⟩
  else if id = cfg.getRpcRespData then ⟨0, 0, UInt8.ofNat cfg.rpcS2mBufferSize, cfg.s2mOffset, none⟩
  else board id

/-- A length is within its buffer, an index within the table. -/
def RpcEvent.Within : RpcEvent → Prop
  | .installed m2s s2m => m2s.toNat ≤ cfg.rpcM2sBufferSize ∧ s2m.toNat ≤ cfg.rpcS2mBufferSize
  | .indexed id => 0 ≤ id ∧ id < cfg.numTotalTransactions
  | .invoked m2s s2m => m2s.toNat ≤ cfg.rpcM2sBufferSize ∧ s2m.toNat ≤ cfg.rpcS2mBufferSize

instance : DecidablePred (RpcEvent.Within cfg)
  | .installed _ _ => inferInstanceAs (Decidable (_ ∧ _))
  | .indexed _ => inferInstanceAs (Decidable (_ ∧ _))
  | .invoked _ _ => inferInstanceAs (Decidable (_ ∧ _))

def LengthsFit (s : RpcState) : Prop :=
  (m2sLength cfg s).toNat ≤ cfg.rpcM2sBufferSize ∧ (s2mLength cfg s).toNat ≤ cfg.rpcS2mBufferSize

/-- A block that passes the checksum names a transaction of the table, or one behind it, and where that has a callback
the lengths fit. -/
def ExecFits (s : RpcState) : Prop :=
  ChecksumOk cfg s → transactionId cfg s < cfg.numTotalTransactions →
    0 ≤ transactionId cfg s ∧
      ((s.table (transactionId cfg s).toNat).slaveCallback ≠ none → LengthsFit cfg s)

def CallFits (s : RpcState) : SlaveCallback → Prop
  | .rpcInfo => LengthsFit cfg s
  | .rpcExec => ExecFits cfg s
  | .other _ => True

variable {cfg}

/-- On the bytes as they lie in the shared memory when the callback is called. -/
def RpcStep.Fits (s : RpcState) : RpcStep cfg → Prop
  | .react id received => id.toNat < cfg.numTotalTransactions →
      (s.table id.toNat).initiator2targetBufferSize.toNat ≤ received.length →
      ∀ callback, (s.table id.toNat).slaveCallback = some callback →
        CallFits cfg (receive (s.table id.toNat) received s) callback
  | .register _ _ => True

def StepsFit (depth : Nat) : RpcState → List (RpcStep cfg) → Prop
  | _, [] => True
  | s, step :: steps => step.Fits s ∧ StepsFit depth (step.exec depth s).2 steps

end Code

section Bounds

variable {cfg : RpcConfig}

def AllWithin (cfg : RpcConfig) (events : List RpcEvent) : Prop := ∀ e ∈ events, e.Within cfg

theorem allWithin_nil : AllWithin cfg [] := fun _ h => absurd h List.not_mem_nil

theorem allWithin_cons {e : RpcEvent} {events : List RpcEvent} :
    AllWithin cfg (e :: events) ↔ e.Within cfg ∧ AllWithin cfg events := List.forall_mem_cons

theorem allWithin_append {first rest : List RpcEvent} :
    AllWithin cfg (first ++ rest) ↔ AllWithin cfg first ∧ AllWithin cfg rest := List.forall_mem_append

variable {s : RpcState}

theorem info_within_iff : AllWithin cfg (slaveRpcInfoCallback cfg s).1 ↔ LengthsFit cfg s := by
  rw [slaveRpcInfoCallback, allWithin_cons, and_iff_left allWithin_nil]
  exact Iff.rfl

/-- The callback of the transaction is invoked with the lengths, be it the callback itself. -/
theorem exec_within (h : ExecFits cfg s) (depth : Nat) : AllWithin cfg (slaveRpcExecCallback cfg depth s).1 := by
  induction depth with
  | zero => exact allWithin_nil
  | succ depth ih =>
    rw [slaveRpcExecCallback]
    by_cases hsum : ChecksumOk cfg s
    · rw [if_neg (not_not_intro hsum)]
      by_cases hlt : transactionId cfg s < cfg.numTotalTransactions
      · obtain ⟨hpos, hlengths⟩ := h hsum hlt
        have hindex : (RpcEvent.indexed (transactionId cfg s)).Within cfg := ⟨hpos, hlt⟩
        rw [if_pos hlt, if_neg (Int.not_lt.mpr hpos)]
        cases hcallback : (s.table (transactionId cfg s).toNat).slaveCallback with
        | none => exact allWithin_cons.mpr ⟨hindex, allWithin_nil⟩
        | some callback =>
          have hfit := hlengths (by rw [hcallback]; exact Option.some_ne_none callback)
          refine allWithin_cons.mpr ⟨hindex, allWithin_cons.mpr ⟨hfit, ?_⟩⟩
          cases callback with
          | rpcInfo => exact info_within_iff.mpr hfit
          | rpcExec => exact ih
          | other run => exact allWithin_nil
      · rw [if_neg hlt]
        exact allWithin_nil
    · rw [if_pos hsum]
      exact allWithin_nil

theorem exec_within_iff (depth : Nat) :
    AllWithin cfg (slaveRpcExecCallback cfg (depth + 1) s).1 ↔ ExecFits cfg s := by
  refine ⟨fun h hsum hlt => ?_, fun h => exec_within h (depth + 1)⟩
  rw [slaveRpcExecCallback, if_neg (not_not_intro hsum), if_pos hlt] at h
  by_cases hneg : transactionId cfg s < 0
  · rw [if_pos hneg] at h
    have hindex := (allWithin_cons.mp h).1.1
    omega
  · rw [if_neg hneg] at h
    refine ⟨Int.not_lt.mp hneg, fun hsome => ?_⟩
    obtain ⟨callback, hcallback⟩ := Option.ne_none_iff_exists'.mp hsome
    rw [hcallback] at h
    exact (allWithin_cons.mp (allWithin_cons.mp h).2).1

theorem invoke_within_iff (depth : Nat) {m2s s2m : UInt8} (callback : SlaveCallback) :
    AllWithin cfg (invoke cfg (slaveRpcExecCallback cfg (depth + 1)) m2s s2m s callback).1 ↔
      CallFits cfg s callback := by
  cases callback with
  | rpcInfo => exact info_within_iff
  | rpcExec => exact exec_within_iff depth
  | other run => exact iff_of_true allWithin_nil trivial

theorem step_within_iff (depth : Nat) (step : RpcStep cfg) :
    AllWithin cfg (step.exec (depth + 1) s).1 ↔ step.Fits s := by
  cases step with
  | register id run => exact iff_of_true allWithin_nil trivial
  | react id received =>
    rw [RpcStep.exec, reactToTransaction, RpcStep.Fits]
    by_cases hid : cfg.numTotalTransactions ≤ id.toNat
    · rw [if_pos hid]
      exact iff_of_true allWithin_nil fun hlt => absurd hlt (Nat.not_lt.mpr hid)
    · rw [if_neg hid]
      by_cases hshort : received.length < (s.table id.toNat).initiator2targetBufferSize.toNat
      · rw [if_pos hshort]
        exact iff_of_true allWithin_nil fun _ hle => absurd hle (Nat.not_le.mpr hshort)
      · rw [if_neg hshort]
        cases hcallback : (s.table id.toNat).slaveCallback with
        | none => exact iff_of_true allWithin_nil nofun
        | some callback =>
          show AllWithin cfg (invoke cfg _ _ _ _ callback).1 ↔ _
          rw [invoke_within_iff]
          constructor
          · rintro hfits - - callback' heq
            exact Option.some.inj heq ▸ hfits
          · exact fun hfits => hfits (Nat.not_le.mp hid) (Nat.not_lt.mp hshort) callback rfl

theorem run_within_iff (depth : Nat) (steps : List (RpcStep cfg)) :
    ∀ {s : RpcState}, AllWithin cfg (runRpc (depth + 1) s steps).1 ↔ StepsFit (depth + 1) s steps := by
  induction steps with
  | nil => exact iff_of_true allWithin_nil trivial
  | cons step steps ih =>
    intro s
    rw [runRpc, allWithin_append, StepsFit, step_within_iff, ih]

/-- What the table lets in for a request, and sends as a response. -/
def TableFits (cfg : RpcConfig) (s : RpcState) : Prop :=
  (s.table cfg.putRpcReqData).initiator2targetBufferSize.toNat ≤ cfg.rpcM2sBufferSize ∧
    (s.table cfg.getRpcRespData).target2initiatorBufferSize.toNat ≤ cfg.rpcS2mBufferSize

theorem table_fits (board : Nat → SplitTransactionDesc) (shmem : Mem UInt8) :
    TableFits cfg ⟨rpcTable cfg board, shmem⟩ := by
  constructor
  · show (rpcTable cfg board cfg.putRpcReqData).initiator2targetBufferSize.toNat ≤ _
    rw [rpcTable, RpcConfig.putRpcReqData, if_neg (by omega), if_pos rfl, UInt8.toNat_ofNat']
    exact Nat.mod_le _ _
  · show (rpcTable cfg board cfg.getRpcRespData).target2initiatorBufferSize.toNat ≤ _
    rw [rpcTable, RpcConfig.getRpcRespData, if_neg (by omega), if_neg (by rw [RpcConfig.putRpcReqData]; omega),
      if_neg (by rw [RpcConfig.executeRpc]; omega), if_pos rfl, UInt8.toNat_ofNat']
    exact Nat.mod_le _ _

theorem putRpcReqData_ne : cfg.putRpcReqData ≠ cfg.getRpcRespData := by
  rw [RpcConfig.putRpcReqData, RpcConfig.getRpcRespData]
  omega

theorem info_tableFits (h : LengthsFit cfg s) : TableFits cfg (slaveRpcInfoCallback cfg s).2 := by
  have hrequest : ((slaveRpcInfoCallback cfg s).2.table cfg.putRpcReqData).initiator2targetBufferSize =
      m2sLength cfg s := by
    simp [slaveRpcInfoCallback, Function.update_of_ne putRpcReqData_ne]
  have hresponse : ((slaveRpcInfoCallback cfg s).2.table cfg.getRpcRespData).target2initiatorBufferSize =
      s2mLength cfg s := by
    simp [slaveRpcInfoCallback]
  rw [TableFits, hrequest, hresponse]
  exact h

theorem exec_tableFits (hfits : ExecFits cfg s) (h : TableFits cfg s) (depth : Nat) :
    TableFits cfg (slaveRpcExecCallback cfg depth s).2 := by
  induction depth with
  | zero => exact h
  | succ depth ih =>
    rw [slaveRpcExecCallback]
    by_cases hsum : ChecksumOk cfg s
    · rw [if_neg (not_not_intro hsum)]
      by_cases hlt : transactionId cfg s < cfg.numTotalTransactions
      · obtain ⟨hpos, hlengths⟩ := hfits hsum hlt
        rw [if_pos hlt, if_neg (Int.not_lt.mpr hpos)]
        cases hcallback : (s.table (transactionId cfg s).toNat).slaveCallback with
        | none => exact h
        | some callback =>
          cases callback with
          | rpcInfo => exact info_tableFits (hlengths (by rw [hcallback]; exact Option.some_ne_none _))
          | rpcExec => exact ih
          | other run => exact h
      · rw [if_neg hlt]
        exact h
    · rw [if_pos hsum]
      exact h

theorem step_tableFits {depth : Nat} {step : RpcStep cfg} (hfits : step.Fits s) (h : TableFits cfg s) :
    TableFits cfg (step.exec depth s).2 := by
  cases step with
  | register id run =>
    rw [RpcStep.exec, transactionRegisterRpc]
    by_cases hid : id.val ≤ cfg.getRpcRespData
    · rw [if_pos hid]
      exact h
    · rw [if_neg hid]
      have hrequest : cfg.putRpcReqData ≠ id.val := by
        rw [RpcConfig.getRpcRespData] at hid
        rw [RpcConfig.putRpcReqData]
        omega
      have hresponse : cfg.getRpcRespData ≠ id.val := by omega
      rw [TableFits]
      simp only [Function.update_of_ne hrequest, Function.update_of_ne hresponse]
      exact h
  | react id received =>
    rw [RpcStep.exec, reactToTransaction]
    by_cases hid : cfg.numTotalTransactions ≤ id.toNat
    · rw [if_pos hid]
      exact h
    · rw [if_neg hid]
      by_cases hshort : received.length < (s.table id.toNat).initiator2targetBufferSize.toNat
      · rw [if_pos hshort]
        exact h
      · rw [if_neg hshort]
        cases hcallback : (s.table id.toNat).slaveCallback with
        | none => exact h
        | some callback =>
          have hcall := hfits (Nat.not_le.mp hid) (Nat.not_lt.mp hshort) callback hcallback
          cases callback with
          | rpcInfo => exact info_tableFits hcall
          | rpcExec => exact exec_tableFits hcall h depth
          | other run => exact h

theorem run_tableFits {depth : Nat} (steps : List (RpcStep cfg)) :
    ∀ {s : RpcState}, StepsFit depth s steps → TableFits cfg s → TableFits cfg (runRpc depth s steps).2 := by
  induction steps with
  | nil => exact fun _ h => h
  | cons step steps ih => exact fun hfits h => ih hfits.2 (step_tableFits hfits.1 h)

end Bounds

/-- Any transactions in any order, with any bytes, complete or broken off: the lengths and the ids that are used are
within bounds exactly where the blocks that are acted on say such, and then the table is as well. -/
theorem rpc_bounded_iff (cfg : RpcConfig) (depth : Nat) (board : Nat → SplitTransactionDesc) (shmem : Mem UInt8)
    (steps : List (RpcStep cfg)) :
    let start : RpcState := ⟨rpcTable cfg board, shmem⟩
    let run := runRpc (depth + 1) start steps
    (AllWithin cfg run.1 ∧ TableFits cfg run.2) ↔ StepsFit (depth + 1) start steps := by
  intro start run
  rw [← run_within_iff]
  refine and_iff_left_of_imp fun hwithin => ?_
  exact run_tableFits steps ((run_within_iff depth steps).mp hwithin) (table_fits board shmem)

def RpcConfig.plain : RpcConfig :=
  ⟨2, 7, by decide, by decide, 32, by decide, 32, by decide, 16, Split.crc8⟩

/-- The checksum is right, and the block asks for 200 bytes and for the transaction -1. -/
theorem rpc_block_trusted :
    let block : List UInt8 := [crc8 [0xFF, 200, 0], 0xFF, 200, 0]
    let steps : List (RpcStep .plain) := [.react 2 block, .react 4 [0xFF]]
    let run := runRpc 1 ⟨rpcTable .plain fun _ => ⟨0, 0, 0, 0, none⟩, fun _ => 0⟩ steps
    run.1 = [.installed 200 0, .indexed (-1)] ∧ ¬ AllWithin .plain run.1 := by
  intro block steps run
  have hevents : run.1 = [.installed 200 0, .indexed (-1)] := by decide +kernel
  refine ⟨hevents, fun h => ?_⟩
  rw [hevents] at h
  exact absurd (allWithin_cons.mp h).1 (by decide)

end Split
end VialQmk
