import VialQmk.WearLeveling.Entry

/-!
# WearLeveling.Model

`wear_leveling.c` over a backing store whose operations may fail. The store reads zero where it is
erased; an operation that fails leaves it as it was. Every unlock, erase, write and lock is recorded
in `ops`, in order.
-/

namespace VialQmk
namespace WearLeveling

open Lib

/-- An operation on the backing store, with its result. -/
inductive StoreOp where
  | unlock (ok : Bool)
  | erase (ok : Bool)
  | write (address : Nat) (value : List UInt8) (ok : Bool)
  | lock (ok : Bool)
  deriving DecidableEq, Repr

/-- How the backing store behaves: `ok n` is the result of the `n`-th operation. -/
structure Driver where
  initOk : Bool
  readOk : Nat → Bool
  ok : Nat → Bool
  /-- What lies on the stack where `write_log_entry_t log` is placed. -/
  stack : Raw8

def Driver.working (stack : Raw8) : Driver := ⟨true, fun _ => true, fun _ => true, stack⟩

abbrev Cache := Mem UInt8

/-- `wear_leveling`, with the backing store and what was done to it. -/
structure State where
  cache : Cache
  writeAddress : Nat
  unlocked : Bool
  store : Mem UInt8
  ops : List StoreOp

inductive Status where
  | failed | success | consolidated
  deriving DecidableEq, Repr

inductive LockStatus where
  | failure | success | unchanged
  deriving DecidableEq, Repr

section Store

variable (drv : Driver) (s : State)

def backingStoreUnlock : Bool × State :=
  let ok := drv.ok s.ops.length
  (ok, { s with ops := s.ops ++ [.unlock ok] })

def backingStoreLock : Bool × State :=
  let ok := drv.ok s.ops.length
  (ok, { s with ops := s.ops ++ [.lock ok] })

def backingStoreErase : Bool × State :=
  let ok := drv.ok s.ops.length
  (ok, { s with
    store := if ok then fun _ => 0 else s.store
    ops := s.ops ++ [.erase ok] })

def backingStoreWrite (address : Nat) (value : List UInt8) : Bool × State :=
  let ok := drv.ok s.ops.length
  (ok, { s with
    store := if ok then s.store.writeBlock address value else s.store
    ops := s.ops ++ [.write address value ok] })

def backingStoreWriteBulk (cfg : Config) (drv : Driver) : State → Nat → List (List UInt8) → Bool × State
  | s, _, [] => (true, s)
  | s, address, v :: vs =>
    let r := backingStoreWrite drv s address v
    if r.1 then backingStoreWriteBulk cfg drv r.2 (address + cfg.writeSize) vs else (false, r.2)

def backingStoreRead (cfg : Config) (drv : Driver) (m : Mem UInt8) (address : Nat) :
    Option (List UInt8) :=
  if drv.readOk address then some (m.readBlock address cfg.writeSize) else none

def bulkReadOk (cfg : Config) (drv : Driver) (address n : Nat) : Bool :=
  (List.range n).all fun k => drv.readOk (address + k * cfg.writeSize)

def wearLevelingUnlock : LockStatus × State :=
  if s.unlocked then (.unchanged, s)
  else
    let r := backingStoreUnlock drv s
    if r.1 then (.success, { r.2 with unlocked := true }) else (.failure, r.2)

def wearLevelingLock : LockStatus × State :=
  if s.unlocked then
    let r := backingStoreLock drv s
    if r.1 then (.success, { r.2 with unlocked := false }) else (.failure, r.2)
  else (.unchanged, s)

end Store

def fnv64aBuf (buf : List UInt8) (hval : UInt64) : UInt64 :=
  buf.foldl (fun h b => (h ^^^ b.toUInt64) * 0x100000001b3) hval

def le64 (v : UInt64) : List UInt8 :=
  [v.toUInt8, (v >>> 8).toUInt8, (v >>> 16).toUInt8, (v >>> 24).toUInt8, (v >>> 32).toUInt8,
    (v >>> 40).toUInt8, (v >>> 48).toUInt8, (v >>> 56).toUInt8]

section Consolidate

variable (cfg : Config) (drv : Driver) (s : State)

def cacheBytes (c : Cache) : List UInt8 := c.readBlock 0 cfg.logicalSize

def checksumBytes (c : Cache) : List UInt8 := le64 (fnv64aBuf (cacheBytes cfg c) 0xcbf29ce484222325)

def wearLevelingClearCache : State :=
  { s with cache := fun _ => 0, writeAddress := cfg.logBase }

def consolidatedCache (m : Mem UInt8) : Cache := fun x => if x < cfg.logicalSize then m x else 0

/-- The stored checksum; what cannot be read is left over on the stack. -/
def readChecksum (m : Mem UInt8) : List UInt8 :=
  (List.range 8).map fun i =>
    if bulkReadOk cfg drv cfg.logicalSize (i / cfg.writeSize + 1) then m (cfg.logicalSize + i)
    else drv.stack i

def wearLevelingReadConsolidated : Status × State :=
  if bulkReadOk cfg drv 0 (cfg.logicalSize / cfg.writeSize) then
    let s := { s with cache := consolidatedCache cfg s.store }
    if readChecksum cfg drv s.store = checksumBytes cfg s.cache then (.success, s)
    else (.success, wearLevelingClearCache cfg s)
  else (.failed, wearLevelingClearCache cfg s)

def wordsOf (buf : List UInt8) : List (List UInt8) :=
  (List.range (buf.length / cfg.writeSize)).map fun k =>
    (buf.drop (k * cfg.writeSize)).take cfg.writeSize

/-- The two bulk writes of `wear_leveling_write_consolidated`: the data, then the checksum. -/
def writeConsolidatedData : Status × State :=
  let bulk := backingStoreWriteBulk cfg drv s 0 (wordsOf cfg (cacheBytes cfg s.cache))
  if bulk.1 then
    let sum := backingStoreWriteBulk cfg drv bulk.2 cfg.logicalSize
      (wordsOf cfg (checksumBytes cfg s.cache))
    (if sum.1 then .consolidated else .failed, sum.2)
  else (.failed, bulk.2)

def wearLevelingWriteConsolidated : Status × State :=
  let lockStatus := wearLevelingUnlock drv s
  let r := writeConsolidatedData cfg drv lockStatus.2
  (r.1, if lockStatus.1 = .success then (wearLevelingLock drv r.2).2 else r.2)

def wearLevelingConsolidateForce : Status × State :=
  let erase := backingStoreErase drv s
  if erase.1 then
    let r := wearLevelingWriteConsolidated cfg drv erase.2
    (r.1, { r.2 with writeAddress := cfg.logBase })
  else (.failed, erase.2)

def wearLevelingConsolidateIfNeeded : Status × State :=
  if s.writeAddress ≥ cfg.backingSize then wearLevelingConsolidateForce cfg drv s else (.success, s)

end Consolidate

section Append

variable (cfg : Config) (drv : Driver)

def wearLevelingAppendRaw (s : State) (value : List UInt8) : Status × State :=
  let r := backingStoreWrite drv s s.writeAddress value
  if r.1 then
    wearLevelingConsolidateIfNeeded cfg drv
      { r.2 with writeAddress := s.writeAddress + cfg.writeSize }
  else (.failed, r.2)

/-- The words of one entry, until an append does not return `WEAR_LEVELING_SUCCESS`. -/
def appendWords : State → List (List UInt8) → Status × State
  | s, [] => (.success, s)
  | s, v :: vs =>
    let r := wearLevelingAppendRaw cfg drv s v
    if r.1 = .success then appendWords r.2 vs else r

/-- The loop of `wear_leveling_write_raw`. Every entry takes at least one byte, so that as many
rounds as there are bytes are enough. -/
def wearLevelingWriteRaw : Nat → State → Nat → List UInt8 → Status × State
  | 0, s, _, _ => (.success, s)
  | fuel + 1, s, address, p =>
    if p.length > 0 then
      let e := nextEntry cfg address p
      let r := appendWords cfg drv s (e.storedWords cfg)
      if r.1 = .success then
        wearLevelingWriteRaw fuel r.2 (address + e.consumed) (p.drop e.consumed)
      else r
    else (.success, s)

end Append

/-- One round of the playback loop: it goes on, or it stops with a status. -/
inductive PlayStep where
  | stop (status : Status) (address : Nat)
  | next (address : Nat) (cache : Cache)

section Playback

variable (cfg : Config) (drv : Driver) (m : Mem UInt8)

/-- Reads the `k`-th word of the entry if the encoding has one. -/
def readWord (cond : Prop) [Decidable cond] (k : Nat) (r : Nat × Raw8) : Option (Nat × Raw8) :=
  if cond then
    match backingStoreRead cfg drv m r.1 with
    | none => none
    | some value => some (r.1 + cfg.writeSize, r.2.writeBlock (k * cfg.writeSize) value)
  else some r

def playMultibyte (address : Nat) (log : Raw8) (cache : Cache) : PlayStep :=
  match readWord cfg drv m (cfg.writeSize = 2) 1 (address, log) with
  | none => .stop .failed address
  | some (address, log) =>
    let a := logEntryMultibyteGetAddress log
    let l := logEntryMultibyteGetLength log
    if a + l > cfg.logicalSize then .stop .failed address
    else
      match readWord cfg drv m (cfg.writeSize = 2 ∧ l > 1) 2 (address, log) with
      | none => .stop .failed address
      | some (address, log) =>
        match readWord cfg drv m (cfg.writeSize = 2 ∧ l > 3) 3 (address, log) with
        | none => .stop .failed address
        | some (address, log) =>
          match readWord cfg drv m (cfg.writeSize = 4 ∧ l > 1) 1 (address, log) with
          | none => .stop .failed address
          | some (address, log) => .next address (cache.writeBlock a (log.readBlock 3 l))

def playOptimized64 (address : Nat) (log : Raw8) (cache : Cache) : PlayStep :=
  let a := logEntryOptimized64GetAddress log
  let v := logEntryOptimized64GetValue log
  if a ≥ cfg.logicalSize then .stop .failed address
  else .next address (cache.writeBlock a [v])

def playWord01 (address : Nat) (log : Raw8) (cache : Cache) : PlayStep :=
  let a := logEntryWord01GetAddress log
  let v := logEntryWord01GetValue log
  if a + 1 ≥ cfg.logicalSize then .stop .failed address
  else .next address (cache.writeBlock a [v, 0])

def playStep (address : Nat) (cache : Cache) : PlayStep :=
  match backingStoreRead cfg drv m address with
  | none => .stop .failed address
  | some value =>
    if value.all (· = 0) then .stop .success address
    else
      let address := address + cfg.writeSize
      let log := drv.stack.writeBlock 0 value
      if logEntryGetType log = 0 then playMultibyte cfg drv m address log cache
      else if cfg.writeSize = 2 ∧ logEntryGetType log = 1 then playOptimized64 cfg address log cache
      else if cfg.writeSize = 2 ∧ logEntryGetType log = 2 then playWord01 cfg address log cache
      else .stop .failed address

/-- The playback loop. Every round moves the address, so that `backingSize` rounds are enough. -/
def playLoop : Nat → Nat → Cache → Status × Nat × Cache
  | 0, address, cache => (.success, address, cache)
  | fuel + 1, address, cache =>
    if address < cfg.backingSize then
      match playStep cfg drv m address cache with
      | .stop status address => (status, address, cache)
      | .next address cache => playLoop fuel address cache
    else (.success, address, cache)

def wearLevelingPlaybackLog (s : State) : Status × State :=
  let r := playLoop cfg drv s.store cfg.backingSize cfg.logBase s.cache
  let s := { s with cache := r.2.2, writeAddress := r.2.1 }
  if r.1 = .failed then wearLevelingConsolidateForce cfg drv s
  else wearLevelingConsolidateIfNeeded cfg drv s

end Playback

section Interface

variable (cfg : Config) (drv : Driver) (s : State)

def wearLevelingInit : Status × State :=
  let s := wearLevelingClearCache cfg s
  if drv.initOk then
    let r := wearLevelingReadConsolidated cfg drv s
    if r.1 = .failed then (r.1, wearLevelingClearCache cfg r.2)
    else
      let r := wearLevelingPlaybackLog cfg drv r.2
      if r.1 = .failed then (r.1, wearLevelingClearCache cfg r.2) else r
  else (.failed, wearLevelingClearCache cfg s)

def wearLevelingErase : Status × State :=
  let lockStatus := wearLevelingUnlock drv s
  if lockStatus.1 = .failure then (.failed, (wearLevelingLock drv lockStatus.2).2)
  else
    let erase := backingStoreErase drv lockStatus.2
    let s := wearLevelingClearCache cfg erase.2
    if lockStatus.1 = .success then
      let lock := wearLevelingLock drv s
      (if erase.1 = true ∧ lock.1 ≠ .failure then .success else .failed, lock.2)
    else (if erase.1 then .success else .failed, s)

def writeAndConsolidate (address : Nat) (value : List UInt8) : Status × State :=
  let r := wearLevelingWriteRaw cfg drv value.length s address value
  if r.1 = .success then wearLevelingConsolidateIfNeeded cfg drv r.2 else r

def wearLevelingWrite (address : Nat) (value : List UInt8) : Status × State :=
  if address + value.length > cfg.logicalSize then (.failed, s)
  else if s.cache.readBlock address value.length = value then (.success, s)
  else
    -- the cache is updated before the backing store
    let s := { s with cache := s.cache.writeBlock address value }
    let lockStatus := wearLevelingUnlock drv s
    if lockStatus.1 = .failure then (.failed, (wearLevelingLock drv lockStatus.2).2)
    else
      let r := writeAndConsolidate cfg drv lockStatus.2 address value
      if lockStatus.1 = .success then
        let lock := wearLevelingLock drv r.2
        (if lock.1 = .failure then .failed else r.1, lock.2)
      else r

def wearLevelingRead (address length : Nat) : Status × List UInt8 :=
  if address + length > cfg.logicalSize then (.failed, [])
  else (.success, s.cache.readBlock address length)

end Interface
end WearLeveling
end VialQmk
