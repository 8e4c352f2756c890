import VialQmk.Lib.Ring

/-!
# Split.Encoder

The encoders of the other half: the event queue of `encoder.c` and the transfer of `transactions.c`.

The slave queues events, publishes a copy of its queue in its shared memory and empties the queue when a
drain command has come. The master polls: it reads the checksum, then, on a mismatch, the queue, takes the
events out of its copy into its own queue and sends the command. A poll is two steps, between which the
slave may do anything. A transfer arrives, is lost or is damaged, whatever is reported of it; a drain
command arrives any number of times, at any later point.

The state also records the events that the slave queued and those that the master took from it.
-/

namespace VialQmk
namespace Split

open Lib

structure EncoderEvent where
  index : UInt8
  clockwise : Bool
  deriving DecidableEq, Repr

def EncoderEvent.byte (e : EncoderEvent) : UInt8 := e.index ||| (if e.clockwise = true then 128 else 0)

/-- `encoder_events_t`, with `cap` for `MAX_QUEUED_ENCODER_EVENTS`. -/
structure EncoderEvents (cap : Nat) where
  enqueued : UInt8
  dequeued : UInt8
  ring : Ring EncoderEvent cap

section Queue

variable {cap : Nat}

def EncoderEvents.bytes (events : EncoderEvents cap) : List UInt8 :=
  [events.enqueued, events.dequeued, UInt8.ofNat events.ring.head, UInt8.ofNat events.ring.tail] ++
    (List.range cap).map fun k => (events.ring.cells k).byte

def EncoderEvents.zero (h : 0 < cap) : EncoderEvents cap :=
  { enqueued := 0
    dequeued := 0
    ring := { cells := fun _ => ⟨0, false⟩, head := 0, tail := 0, head_lt := h, tail_lt := h } }

def encoderQueueEventAdvanced (events : EncoderEvents cap) (index : UInt8) (clockwise : Bool) :
    Bool × EncoderEvents cap :=
  if events.ring.isFull = true then (false, events)
  else
    (true, { events with ring := events.ring.push ⟨index % 128, clockwise⟩, enqueued := events.enqueued + 1 })

def encoderDequeueEventAdvanced (events : EncoderEvents cap) : Option (EncoderEvent × EncoderEvents cap) :=
  if events.ring.isEmpty = true then none
  else some (events.ring.front, { events with ring := events.ring.pop, dequeued := events.dequeued + 1 })

def encoderQueueDrain (events : EncoderEvents cap) : EncoderEvents cap :=
  { events with ring := events.ring.clear, dequeued := events.enqueued }

end Queue

def crc8Bit (crc : UInt8) : UInt8 := if crc &&& 0x80 ≠ 0 then (crc <<< 1) ^^^ 0x31 else crc <<< 1

def crc8 (data : List UInt8) : UInt8 :=
  data.foldl (fun crc d => (List.range 8).foldl (fun crc _ => crc8Bit crc) (crc ^^^ d)) 0xff

structure EncoderShmem (cap : Nat) where
  checksum : UInt8
  events : EncoderEvents cap

/-- What became of a transfer to the master's shared memory. -/
inductive Transfer (α : Type) where
  | arrived
  | lost
  | damaged (x : α)

def Transfer.apply {α : Type} (source destination : α) : Transfer α → α
  | .arrived => source
  | .lost => destination
  | .damaged x => x

structure SplitState (cap : Nat) where
  slaveEvents : EncoderEvents cap
  signalQueueDrain : Bool
  slaveShmem : EncoderShmem cap
  /-- Drain commands on their way. -/
  drains : Nat
  masterEvents : EncoderEvents cap
  masterShmem : EncoderShmem cap
  lastChecksum : UInt8
  /-- `curr_checksum` of the poll in progress. -/
  polling : Option UInt8
  /-- Whether the events in the master's shared memory came by a damaged transfer. -/
  damaged : Bool
  queued : List EncoderEvent
  taken : List EncoderEvent

inductive SplitStep (cap : Nat) where
  /-- The slave's encoder driver has an event. -/
  | slaveEvent (index : UInt8) (clockwise : Bool)
  /-- `encoder_task` of the slave, up to the driver. -/
  | slaveTask
  /-- `encoder_handlers_slave`. -/
  | publish
  /-- `encoder_handlers_slave_drain`. -/
  | drainArrives
  | pollChecksum (transfer : Transfer UInt8) (okay : Bool)
  /-- The rest of `encoder_handlers_master`; `forced` is the throttle of `read_if_checksum_mismatch`, and
  the drain command, if it is sent, arrives `copies` times. -/
  | pollData (forced : Bool) (transfer : Transfer (EncoderEvents cap)) (okay : Bool) (copies : Nat)
  /-- The master's own encoder driver has an event. -/
  | masterEvent (index : UInt8) (clockwise : Bool)
  /-- An event leaves the master's queue to be processed. -/
  | masterDequeue

section Transactions

variable (crc8 : List UInt8 → UInt8) {cap : Nat}

def SplitState.initial (h : 0 < cap) : SplitState cap :=
  { slaveEvents := .zero h
    signalQueueDrain := false
    slaveShmem := ⟨0, .zero h⟩
    drains := 0
    masterEvents := .zero h
    masterShmem := ⟨0, .zero h⟩
    lastChecksum := 0
    polling := none
    damaged := false
    queued := []
    taken := [] }

def readIfChecksumMismatch (forced : Bool) (transfer : Transfer (EncoderEvents cap)) (okay : Bool)
    (currChecksum : UInt8) (s : SplitState cap) : Bool × SplitState cap :=
  if forced = true ∨ currChecksum ≠ crc8 s.masterShmem.events.bytes then
    let events := transfer.apply s.slaveShmem.events s.masterShmem.events
    let damaged := match transfer with
      | .arrived => false
      | .lost => s.damaged
      | .damaged _ => true
    (okay && currChecksum == crc8 events.bytes,
      { s with masterShmem := { s.masterShmem with events := events }, damaged := damaged })
  else (true, s)

/-- The loop of `encoder_handlers_master`, for at most `n` rounds: the events in the copy and in the
master's queue after it, and those that were taken. -/
def takeEvents : Nat → EncoderEvents cap → EncoderEvents cap → List EncoderEvent →
    Bool × EncoderEvents cap × EncoderEvents cap × List EncoderEvent
  | 0, copy, own, taken => (true, copy, own, taken)
  | n + 1, copy, own, taken =>
    match encoderDequeueEventAdvanced copy with
    | none => (true, copy, own, taken)
    | some (e, copy) =>
      let (okay, own) := encoderQueueEventAdvanced own e.index e.clockwise
      if okay = true then takeEvents n copy own (taken ++ [e]) else (false, copy, own, taken)

def handleEvents (copies : Nat) (s : SplitState cap) : SplitState cap :=
  if s.lastChecksum ≠ s.masterShmem.checksum then
    let (_, copy, own, taken) := takeEvents cap s.masterShmem.events s.masterEvents s.taken
    { s with
      masterShmem := { s.masterShmem with events := copy }
      masterEvents := own
      taken := taken
      drains := if s.masterShmem.events.ring.isEmpty = true then s.drains else s.drains + copies
      lastChecksum := s.masterShmem.checksum }
  else s

def SplitStep.exec (s : SplitState cap) : SplitStep cap → SplitState cap
  | .slaveEvent index clockwise =>
    let (okay, events) := encoderQueueEventAdvanced s.slaveEvents index clockwise
    { s with
      slaveEvents := events
      queued := if okay = true then s.queued ++ [⟨index % 128, clockwise⟩] else s.queued }
  | .slaveTask =>
    if s.signalQueueDrain = true then
      { s with signalQueueDrain := false, slaveEvents := encoderQueueDrain s.slaveEvents }
    else s
  | .publish => { s with slaveShmem := ⟨crc8 s.slaveEvents.bytes, s.slaveEvents⟩ }
  | .drainArrives =>
    if s.drains = 0 then s else { s with drains := s.drains - 1, signalQueueDrain := true }
  | .pollChecksum transfer okay =>
    let checksum := transfer.apply s.slaveShmem.checksum s.masterShmem.checksum
    { s with
      masterShmem := { s.masterShmem with checksum := checksum }
      polling := if okay = true then some checksum else none }
  | .pollData forced transfer okay copies =>
    match s.polling with
    | none => s
    | some currChecksum =>
      let (okay, s) := readIfChecksumMismatch crc8 forced transfer okay currChecksum { s with polling := none }
      if okay = true then handleEvents copies s else s
  | .masterEvent index clockwise =>
    { s with masterEvents := (encoderQueueEventAdvanced s.masterEvents index clockwise).2 }
  | .masterDequeue =>
    match encoderDequeueEventAdvanced s.masterEvents with
    | none => s
    | some (_, events) => { s with masterEvents := events }

def runSplit (s : SplitState cap) (steps : List (SplitStep cap)) : SplitState cap :=
  steps.foldl (SplitStep.exec crc8) s

end Transactions

end Split
end VialQmk
