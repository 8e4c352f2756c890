import VialQmk.Split.Encoder

/-!
# Split.ExactlyOnce

Which runs of the two halves transfer every encoder event exactly once. A queue, wherever a copy of it
lies, is a stretch of the sequence of all events that the slave ever queued (`Stretch`), and its counters
say, modulo 256, where the stretch begins and ends.

* `Watch`: who has come how far, told from the order of the steps alone. `Transferring`: so it is.
* `encoder_events_transferred`: the events taken are the first ones queued, in order, and the others are
  still in the slave's queue, in every run in which no event comes between a copy that is taken and the
  drain that answers it, and no copy is taken that was made before the last drain.
* `queued_while_taken`: an event queued between the copy and the drain is lost.
-/

namespace VialQmk
namespace Split

open Lib

section Queue

variable {cap : Nat}

/-- The queue holds the events from the `first` on of a sequence. -/
structure Stretch (queued : List EncoderEvent) (first : Nat) (events : EncoderEvents cap) : Prop where
  contents : events.ring.contents = (queued.drop first).take events.ring.size
  bound : first + events.ring.size ≤ queued.length
  dequeued : events.dequeued = UInt8.ofNat first
  enqueued : events.enqueued = UInt8.ofNat (first + events.ring.size)

theorem zero_stretch (queued : List EncoderEvent) (h : 0 < cap) :
    Stretch queued 0 (EncoderEvents.zero h : EncoderEvents cap) where
  contents := by simp [EncoderEvents.zero, Ring.contents, Ring.size]
  bound := by simp [EncoderEvents.zero, Ring.size]
  dequeued := rfl
  enqueued := by simp [EncoderEvents.zero, Ring.size]

variable {events : EncoderEvents cap}

theorem Stretch.snoc {queued : List EncoderEvent} {first : Nat} (h : Stretch queued first events) (e : EncoderEvent)
    : Stretch (queued ++ [e]) first events := by
  have hbound := h.bound
  refine ⟨?_, by rw [List.length_append]; omega, h.dequeued, h.enqueued⟩
  rw [h.contents, List.drop_append_of_le_length (by omega), List.take_append_of_le_length]
  rw [List.length_drop]
  omega

theorem Stretch.queueEvent {queued : List EncoderEvent} {first : Nat} (h : Stretch queued first events)
    (hend : first + events.ring.size = queued.length) (hroom : events.ring.isFull = false) (index : UInt8)
    (clockwise : Bool) : encoderQueueEventAdvanced events index clockwise =
      (true, (encoderQueueEventAdvanced events index clockwise).2) ∧
    Stretch (queued ++ [⟨index % 128, clockwise⟩]) first (encoderQueueEventAdvanced events index clockwise).2 ∧
    (encoderQueueEventAdvanced events index clockwise).2.ring.size = events.ring.size + 1 := by
  have hpush := events.ring.contents_push ⟨index % 128, clockwise⟩ hroom
  have hsize : (events.ring.push ⟨index % 128, clockwise⟩).size = events.ring.size + 1 := by
    have hlen := congrArg List.length hpush
    simpa using hlen
  simp only [encoderQueueEventAdvanced, hroom, Bool.false_eq_true, if_false, true_and]
  refine ⟨⟨?_, ?_, h.dequeued, ?_⟩, hsize⟩
  · rw [hpush, h.contents, hsize, List.drop_append_of_le_length (by omega), List.take_of_length_le,
      List.take_of_length_le]
    · rw [List.length_append, List.length_drop, List.length_singleton]
      omega
    · rw [List.length_drop]
      omega
  · simp only [hsize, List.length_append, List.length_singleton]
    omega
  · simp only [hsize, h.enqueued, ← Nat.add_assoc]
    rw [UInt8.ofNat_add (first + events.ring.size) 1]
    rfl

theorem Stretch.drain {queued : List EncoderEvent} {first : Nat} (h : Stretch queued first events) :
    Stretch queued (first + events.ring.size) (encoderQueueDrain events) ∧
      (encoderQueueDrain events).ring.size = 0 := by
  have hsize : (encoderQueueDrain events).ring.size = 0 := by
    have hlen := congrArg List.length events.ring.contents_clear
    rwa [Ring.length_contents] at hlen
  refine ⟨⟨?_, ?_, h.enqueued, ?_⟩, hsize⟩
  · rw [hsize, List.take_zero]
    exact events.ring.contents_clear
  · rw [hsize]
    exact h.bound
  · rw [hsize]
    exact h.enqueued

theorem takeEvents_eq {queued : List EncoderEvent} : ∀ (n : Nat) {first : Nat} {copy own : EncoderEvents cap}
    {taken : List EncoderEvent}, Stretch queued first copy → copy.ring.size ≤ n → taken = queued.take first →
    (takeEvents n copy own taken).1 = true →
      ∃ copy' own', takeEvents n copy own taken =
          (true, copy', own', queued.take (first + copy.ring.size)) ∧
        Stretch queued (first + copy.ring.size) copy' ∧ copy'.ring.size = 0 := by
  intro n
  induction n with
  | zero =>
    intro first copy own taken h hsize htaken _
    have hzero : copy.ring.size = 0 := by omega
    rw [hzero, Nat.add_zero]
    exact ⟨copy, own, by rw [takeEvents, htaken], h, hzero⟩
  | succ n ih =>
    intro first copy own taken h hsize htaken hokay
    rw [takeEvents] at hokay ⊢
    cases hempty : copy.ring.isEmpty with
    | true =>
      have hzero : copy.ring.size = 0 := by
        have hlen := congrArg List.length (copy.ring.contents_eq_nil hempty)
        simpa using hlen
      simp only [encoderDequeueEventAdvanced, hempty, if_true, hzero, Nat.add_zero]
      exact ⟨copy, own, by rw [htaken], h, hzero⟩
    | false =>
      simp only [encoderDequeueEventAdvanced, hempty, Bool.false_eq_true, if_false] at hokay ⊢
      have hpop := copy.ring.contents_pop hempty
      have hsucc : copy.ring.size = copy.ring.pop.size + 1 := by
        have hlen := congrArg List.length hpop
        simpa using hlen
      have hbound := h.bound
      have hlt : first < queued.length := by omega
      have hcontents := h.contents
      rw [hpop, hsucc, List.drop_eq_getElem_cons hlt, List.take_succ_cons, List.cons.injEq] at hcontents
      have hrest : Stretch queued (first + 1)
          { copy with ring := copy.ring.pop, dequeued := copy.dequeued + 1 } := by
        refine ⟨hcontents.2, by simp only; omega, ?_, ?_⟩
        · simp only [h.dequeued]
          rw [UInt8.ofNat_add]
          rfl
        · simp only [h.enqueued, hsucc]
          rw [Nat.add_right_comm, Nat.add_assoc]
      cases hqueue : encoderQueueEventAdvanced own copy.ring.front.index copy.ring.front.clockwise with
      | mk okay own' =>
        simp only [hqueue] at hokay ⊢
        cases okay with
        | false => simp at hokay
        | true =>
          simp only [if_true] at hokay ⊢
          have htaken' : taken ++ [copy.ring.front] = queued.take (first + 1) := by
            rw [htaken, hcontents.1, List.take_add_one, List.getElem?_eq_getElem hlt]
            rfl
          obtain ⟨copy', own'', heq, hstretch, hzero⟩ := ih hrest (by simp only; omega) htaken' hokay
          have hsum : first + 1 + copy.ring.pop.size = first + copy.ring.size := by omega
          simp only [hsum] at heq hstretch
          exact ⟨copy', own'', heq, hstretch, hzero⟩

end Queue

section Transactions

variable (crc8 : List UInt8 → UInt8) {cap : Nat}

/-- The state of a poll that has read the events, and whether it has succeeded so far. -/
abbrev afterRead (forced : Bool) (transfer : Transfer (EncoderEvents cap)) (okay : Bool) (currChecksum : UInt8)
    (s : SplitState cap) : Bool × SplitState cap :=
  readIfChecksumMismatch crc8 forced transfer okay currChecksum { s with polling := none }

/-- The state in which a poll looks for events: it has read them, and it has not seen the checksum yet. -/
def LooksForEvents (okay : Bool) (s : SplitState cap) : Prop :=
  okay = true ∧ s.lastChecksum ≠ s.masterShmem.checksum
deriving Decidable

def Takes (okay : Bool) (s : SplitState cap) : Prop :=
  LooksForEvents okay s ∧ s.masterShmem.events.ring.isEmpty = false

instance (okay : Bool) (s : SplitState cap) : Decidable (Takes okay s) := inferInstanceAs (Decidable (_ ∧ _))

structure CopyWatch where
  /-- It was made before a drain that was due, or events have been taken since. -/
  stale : Bool
  /-- An event was queued since. -/
  behind : Bool
  deriving DecidableEq, Repr

structure Watch where
  /-- An event was queued that is in no copy that was taken. -/
  behind : Bool
  /-- Events were taken that the slave has not dropped. -/
  undropped : Bool
  published : CopyWatch
  copied : CopyWatch
  deriving DecidableEq, Repr

def Watch.start : Watch := ⟨false, false, ⟨false, false⟩, ⟨false, false⟩⟩

def Watch.read (forced : Bool) (transfer : Transfer (EncoderEvents cap)) (currChecksum : UInt8) (s : SplitState cap)
    (w : Watch) : Watch :=
  if forced = true ∨ currChecksum ≠ crc8 s.masterShmem.events.bytes then
    match transfer with
    | .lost => w
    | .arrived | .damaged _ => { w with copied := w.published }
  else w

def Watch.take (w : Watch) : Watch :=
  { behind := w.copied.behind
    undropped := true
    published := { w.published with stale := true }
    copied := { w.copied with stale := false } }

def Watch.after (w : Watch) (s : SplitState cap) : SplitStep cap → Watch
  | .slaveEvent _ _ =>
    { w with
      behind := true
      published := { w.published with behind := true }
      copied := { w.copied with behind := true } }
  | .slaveTask => if s.signalQueueDrain = true then { w with undropped := false } else w
  | .publish => { w with published := ⟨w.undropped, false⟩ }
  | .pollData forced transfer okay _ =>
    match s.polling with
    | none => w
    | some currChecksum =>
      if Takes (afterRead crc8 forced transfer okay currChecksum s).1
          (afterRead crc8 forced transfer okay currChecksum s).2 then
        (w.read crc8 forced transfer currChecksum s).take
      else w.read crc8 forced transfer currChecksum s
  | _ => w

/-- Events are taken from an undamaged copy that was made behind the last drain, and the master has room for
them. -/
def TakesNext (w : Watch) (s : SplitState cap) : Prop :=
  w.copied.stale = false ∧ s.damaged = false ∧
    (takeEvents cap s.masterShmem.events s.masterEvents s.taken).1 = true
deriving Decidable

/-- No queue is full, no event has come since the copy that a drain answers, and none is taken from a copy made
before the last drain. -/
def Meets (w : Watch) (s : SplitState cap) : SplitStep cap → Prop
  | .slaveEvent _ _ => s.slaveEvents.ring.isFull = false
  | .slaveTask => s.signalQueueDrain = true → w.behind = false
  | .pollData forced transfer okay _ =>
    ∀ currChecksum ∈ s.polling,
      Takes (afterRead crc8 forced transfer okay currChecksum s).1
          (afterRead crc8 forced transfer okay currChecksum s).2 →
        TakesNext (w.read crc8 forced transfer currChecksum s)
          (afterRead crc8 forced transfer okay currChecksum s).2
  | _ => True

instance (w : Watch) (s : SplitState cap) : (step : SplitStep cap) → Decidable (Meets crc8 w s step)
  | .slaveEvent _ _ => inferInstanceAs (Decidable (_ = _))
  | .slaveTask => inferInstanceAs (Decidable (_ → _))
  | .pollData forced transfer okay _ =>
    inferInstanceAs (Decidable (∀ currChecksum ∈ s.polling,
      Takes (afterRead crc8 forced transfer okay currChecksum s).1
          (afterRead crc8 forced transfer okay currChecksum s).2 →
        TakesNext (w.read crc8 forced transfer currChecksum s)
          (afterRead crc8 forced transfer okay currChecksum s).2))
  | .publish | .drainArrives | .pollChecksum _ _ | .masterEvent _ _ | .masterDequeue => .isTrue trivial

def AllMeet : Watch → SplitState cap → List (SplitStep cap) → Prop
  | _, _, [] => True
  | w, s, step :: steps => Meets crc8 w s step ∧ AllMeet (w.after crc8 s step) (step.exec crc8 s) steps

def watchRun : Watch → SplitState cap → List (SplitStep cap) → Watch
  | w, _, [] => w
  | w, s, step :: steps => watchRun (w.after crc8 s step) (step.exec crc8 s) steps

instance decideAllMeet : (w : Watch) → (s : SplitState cap) → (steps : List (SplitStep cap)) →
    Decidable (AllMeet crc8 w s steps)
  | _, _, [] => .isTrue trivial
  | w, s, step :: steps =>
    have := decideAllMeet (w.after crc8 s step) (step.exec crc8 s) steps
    inferInstanceAs (Decidable (_ ∧ _))

/-- A copy that begins with the event `first`, as far as it is known. -/
structure Copied (w : CopyWatch) (s : SplitState cap) (first : Nat) (events : EncoderEvents cap) : Prop where
  stretch : Stretch s.queued first events
  first_le : first ≤ s.taken.length
  taken_le : s.taken.length ≤ first + events.ring.size
  fresh : w.stale = false → first = s.taken.length
  complete : w.behind = false → first + events.ring.size = s.queued.length

/-- The slave has dropped the first `dropped` events; the copies were made at some time since. -/
structure Transferring (w : Watch) (s : SplitState cap) (dropped : Nat) : Prop where
  taken : s.taken = s.queued.take s.taken.length
  slave : Stretch s.queued dropped s.slaveEvents
  last : dropped + s.slaveEvents.ring.size = s.queued.length
  dropped_le : dropped ≤ s.taken.length
  all_taken : w.behind = false → s.queued.length = s.taken.length
  all_dropped : w.undropped = false → dropped = s.taken.length
  published : ∃ first, Copied w.published s first s.slaveShmem.events ∧
    (s.damaged = false → ∃ copied, Copied w.copied s copied s.masterShmem.events ∧
      copied + s.masterShmem.events.ring.size ≤ first + s.slaveShmem.events.ring.size)

theorem zero_copied (h : 0 < cap) :
    Copied ⟨false, false⟩ (.initial h : SplitState cap) 0 (EncoderEvents.zero h) where
  stretch := zero_stretch _ h
  first_le := Nat.le_refl _
  taken_le := Nat.zero_le _
  fresh _ := rfl
  complete _ := by simp [SplitState.initial, EncoderEvents.zero, Ring.size]

theorem initial_transferring (h : 0 < cap) : Transferring .start (.initial h : SplitState cap) 0 where
  taken := rfl
  slave := zero_stretch _ h
  last := by simp [SplitState.initial, EncoderEvents.zero, Ring.size]
  dropped_le := Nat.le_refl _
  all_taken _ := rfl
  all_dropped _ := rfl
  published := ⟨0, zero_copied h, fun _ => ⟨0, zero_copied h, Nat.le_refl _⟩⟩

variable {w : Watch} {s : SplitState cap} {dropped : Nat}

theorem Transferring.taken_le (h : Transferring w s dropped) : s.taken.length ≤ s.queued.length := by
  have hlen := congrArg List.length h.taken
  rw [List.length_take] at hlen
  omega

theorem Copied.of_same {c : CopyWatch} {first : Nat} {events : EncoderEvents cap} (h : Copied c s first events)
    {s' : SplitState cap} (hqueued : s'.queued = s.queued) (htaken : s'.taken = s.taken) : Copied c s' first events where
  stretch := hqueued ▸ h.stretch
  first_le := htaken ▸ h.first_le
  taken_le := htaken ▸ h.taken_le
  fresh hfresh := htaken ▸ h.fresh hfresh
  complete hcomplete := hqueued ▸ h.complete hcomplete

theorem Transferring.of_same (h : Transferring w s dropped) {s' : SplitState cap} (hqueued : s'.queued = s.queued)
    (htaken : s'.taken = s.taken) (hslave : s'.slaveEvents = s.slaveEvents)
    (hpublished : s'.slaveShmem.events = s.slaveShmem.events)
    (hcopied : s'.masterShmem.events = s.masterShmem.events) (hdamaged : s'.damaged = s.damaged) :
    Transferring w s' dropped := by
  obtain ⟨first, hpub, hcopy⟩ := h.published
  refine ⟨?_, ?_, ?_, htaken ▸ h.dropped_le, ?_, htaken ▸ h.all_dropped, first, ?_, fun hd => ?_⟩
  · rw [hqueued, htaken]
    exact h.taken
  · rw [hqueued, hslave]
    exact h.slave
  · rw [hqueued, hslave]
    exact h.last
  · rw [hqueued, htaken]
    exact h.all_taken
  · rw [hpublished]
    exact hpub.of_same hqueued htaken
  · obtain ⟨copied, hcopied', hwithin⟩ := hcopy (hdamaged ▸ hd)
    rw [hcopied, hpublished]
    exact ⟨copied, hcopied'.of_same hqueued htaken, hwithin⟩

theorem Copied.queued {c : CopyWatch} {first : Nat} {events : EncoderEvents cap} (h : Copied c s first events)
    {s' : SplitState cap} {e : EncoderEvent} (hqueued : s'.queued = s.queued ++ [e]) (htaken : s'.taken = s.taken) :
    Copied { c with behind := true } s' first events where
  stretch := hqueued ▸ h.stretch.snoc e
  first_le := htaken ▸ h.first_le
  taken_le := htaken ▸ h.taken_le
  fresh hfresh := htaken ▸ h.fresh hfresh
  complete hcomplete := by cases hcomplete

theorem Transferring.slaveEvent (h : Transferring w s dropped) (hroom : s.slaveEvents.ring.isFull = false)
    (index : UInt8) (clockwise : Bool) :
    Transferring (w.after crc8 s (.slaveEvent index clockwise)) (SplitStep.exec crc8 s (.slaveEvent index clockwise))
      dropped := by
  obtain ⟨hokay, hstretch, hsize⟩ := h.slave.queueEvent h.last hroom index clockwise
  simp only [SplitStep.exec]
  rw [hokay]
  simp only [if_true]
  obtain ⟨first, hpub, hcopy⟩ := h.published
  refine ⟨?_, hstretch, ?_, h.dropped_le, by rintro ⟨⟩, h.all_dropped, first, hpub.queued rfl rfl, fun hd => ?_⟩
  · rw [List.take_append_of_le_length h.taken_le]
    exact h.taken
  · have hend := h.last
    simp only [hsize, List.length_append, List.length_singleton]
    omega
  · obtain ⟨copied, hcopied, hwithin⟩ := hcopy hd
    exact ⟨copied, hcopied.queued rfl rfl, hwithin⟩

theorem Transferring.slaveTask (h : Transferring w s dropped) (hdrain : s.signalQueueDrain = true → w.behind = false) :
    ∃ dropped', Transferring (w.after crc8 s .slaveTask) (SplitStep.exec crc8 s .slaveTask) dropped' := by
  simp only [SplitStep.exec, Watch.after]
  split
  · rename_i hsignal
    have hlast := h.last
    have hall := h.all_taken (hdrain hsignal)
    obtain ⟨hstretch, hzero⟩ := h.slave.drain
    obtain ⟨first, hpub, hcopy⟩ := h.published
    refine ⟨dropped + s.slaveEvents.ring.size, h.taken, hstretch, ?_, by simp only; omega, h.all_taken,
      fun _ => by simp only; omega, first, hpub.of_same rfl rfl, fun hd => ?_⟩
    · simp only [hzero]
      omega
    · obtain ⟨copied, hcopied, hwithin⟩ := hcopy hd
      exact ⟨copied, hcopied.of_same rfl rfl, hwithin⟩
  · exact ⟨dropped, h⟩

theorem Transferring.publish (h : Transferring w s dropped) :
    Transferring (w.after crc8 s .publish) (SplitStep.exec crc8 s .publish) dropped := by
  have htaken_le := h.taken_le
  have hlast := h.last
  obtain ⟨first, -, hcopy⟩ := h.published
  refine ⟨h.taken, h.slave, h.last, h.dropped_le, h.all_taken, h.all_dropped, dropped,
    ⟨h.slave, h.dropped_le, ?_, h.all_dropped, fun _ => h.last⟩, fun hd => ?_⟩
  · simp only [SplitStep.exec]
    omega
  · obtain ⟨copied, hcopied, -⟩ := hcopy hd
    have hbound := hcopied.stretch.bound
    refine ⟨copied, hcopied.of_same rfl rfl, ?_⟩
    simp only [SplitStep.exec]
    omega

theorem Transferring.read (h : Transferring w s dropped) (forced : Bool) (transfer : Transfer (EncoderEvents cap))
    (okay : Bool) (currChecksum : UInt8) :
    Transferring (w.read crc8 forced transfer currChecksum s)
      (readIfChecksumMismatch crc8 forced transfer okay currChecksum s).2 dropped := by
  unfold readIfChecksumMismatch Watch.read
  split
  · obtain ⟨first, hpub, hcopy⟩ := h.published
    cases transfer with
    | arrived =>
      exact ⟨h.taken, h.slave, h.last, h.dropped_le, h.all_taken, h.all_dropped, first, hpub.of_same rfl rfl, fun _ =>
        ⟨first, hpub.of_same rfl rfl, Nat.le_refl _⟩⟩
    | lost => exact h.of_same rfl rfl rfl rfl rfl rfl
    | damaged x =>
      exact ⟨h.taken, h.slave, h.last, h.dropped_le, h.all_taken, h.all_dropped, first, hpub.of_same rfl rfl,
        by rintro ⟨⟩⟩
  · exact h

theorem takeEvents_empty {copy own : EncoderEvents cap} (hempty : copy.ring.isEmpty = true) (taken : List EncoderEvent) :
    takeEvents cap copy own taken = (true, copy, own, taken) := by
  cases cap with
  | zero => rfl
  | succ n => simp [takeEvents, encoderDequeueEventAdvanced, hempty]

theorem Transferring.handleNone (h : Transferring w s dropped) (copies : Nat)
    (hempty : s.masterShmem.events.ring.isEmpty = true) : Transferring w (Split.handleEvents copies s) dropped := by
  rw [Split.handleEvents]
  split
  · simp only [takeEvents_empty hempty]
    exact h.of_same rfl rfl rfl rfl rfl rfl
  · exact h

theorem Transferring.handleEvents (h : Transferring w s dropped) (copies : Nat)
    (hlook : s.lastChecksum ≠ s.masterShmem.checksum) (hnext : TakesNext w s) :
    Transferring w.take (handleEvents copies s) dropped ∧
      (w.copied.behind = false → (Split.handleEvents copies s).taken.length = s.queued.length) := by
  obtain ⟨hfresh, hd, hroom⟩ := hnext
  obtain ⟨first, hpub, hcopy⟩ := h.published
  obtain ⟨copied, hcopied, hwithin⟩ := hcopy hd
  have heq : copied = s.taken.length := hcopied.fresh hfresh
  subst heq
  have hstretch := hcopied.stretch
  obtain ⟨copy', own', htake, hstretch', hzero⟩ :=
    takeEvents_eq cap hstretch (Nat.le_of_lt s.masterShmem.events.ring.size_lt) h.taken hroom
  have hlen : (s.queued.take (s.taken.length + s.masterShmem.events.ring.size)).length =
      s.taken.length + s.masterShmem.events.ring.size := by
    rw [List.length_take]
    exact Nat.min_eq_left hstretch.bound
  have hdropped := h.dropped_le
  have hfirst := hpub.first_le
  rw [Split.handleEvents, if_pos hlook]
  simp only [htake]
  constructor
  · refine ⟨by simp only [hlen], h.slave, h.last, by simp only [hlen]; omega, fun hbehind => ?_, by rintro ⟨⟩, first,
      ⟨hpub.stretch, ?_, ?_, by rintro ⟨⟩, hpub.complete⟩, fun _ => ⟨_, ⟨hstretch', ?_, ?_, ?_, fun hbehind => ?_⟩, ?_⟩⟩
    · simp only [hlen]
      exact (hcopied.complete hbehind).symm
    · simp only [hlen]
      omega
    · simp only [hlen]
      exact hwithin
    · simp only [hlen]
      omega
    · simp only [hlen]
      omega
    · intro _
      simp only [hlen]
    · simp only [hzero]
      exact hcopied.complete hbehind
    · simp only [hzero]
      exact hwithin
  · intro hbehind
    rw [hlen]
    exact hcopied.complete hbehind

theorem handleEvents_queued (copies : Nat) (s : SplitState cap) :
    (Split.handleEvents copies s).queued = s.queued := by
  rw [Split.handleEvents]
  split <;> rfl

theorem exec_pollData {forced : Bool} {transfer : Transfer (EncoderEvents cap)} {okay : Bool} {copies : Nat}
    {currChecksum : UInt8} (hpoll : s.polling = some currChecksum) :
    SplitStep.exec crc8 s (.pollData forced transfer okay copies) =
      if (afterRead crc8 forced transfer okay currChecksum s).1 = true then
        Split.handleEvents copies (afterRead crc8 forced transfer okay currChecksum s).2
      else (afterRead crc8 forced transfer okay currChecksum s).2 := by
  simp only [SplitStep.exec, hpoll]

theorem Transferring.pollData (h : Transferring w s dropped) {forced : Bool}
    {transfer : Transfer (EncoderEvents cap)} {okay : Bool} {copies : Nat}
    (hmeets : Meets crc8 w s (.pollData forced transfer okay copies)) :
    Transferring (w.after crc8 s (.pollData forced transfer okay copies))
      (SplitStep.exec crc8 s (.pollData forced transfer okay copies)) dropped := by
  cases hpoll : s.polling with
  | none =>
    simp only [SplitStep.exec, Watch.after, hpoll]
    exact h
  | some currChecksum =>
    have hidle : Transferring w { s with polling := none } dropped := h.of_same rfl rfl rfl rfl rfl rfl
    have hread := hidle.read crc8 forced transfer okay currChecksum
    have hmeets := hmeets currChecksum hpoll
    rw [exec_pollData crc8 hpoll]
    simp only [Watch.after, hpoll]
    by_cases htakes : Takes (afterRead crc8 forced transfer okay currChecksum s).1
        (afterRead crc8 forced transfer okay currChecksum s).2
    · rw [if_pos htakes, if_pos htakes.1.1]
      exact (hread.handleEvents copies htakes.1.2 (hmeets htakes)).1
    · rw [if_neg htakes]
      split
      · rename_i hokay
        cases hempty : (afterRead crc8 forced transfer okay currChecksum s).2.masterShmem.events.ring.isEmpty with
        | true => exact hread.handleNone copies hempty
        | false =>
          rw [Split.handleEvents, if_neg fun hlook => htakes ⟨⟨hokay, hlook⟩, hempty⟩]
          exact hread
      · exact hread

theorem Transferring.step (h : Transferring w s dropped) {step : SplitStep cap} (hmeets : Meets crc8 w s step) :
    ∃ dropped', Transferring (w.after crc8 s step) (step.exec crc8 s) dropped' := by
  cases step with
  | slaveEvent index clockwise => exact ⟨dropped, h.slaveEvent crc8 hmeets index clockwise⟩
  | slaveTask => exact h.slaveTask crc8 hmeets
  | publish => exact ⟨dropped, h.publish crc8⟩
  | drainArrives =>
    refine ⟨dropped, ?_⟩
    simp only [SplitStep.exec, Watch.after]
    split
    · exact h
    · exact h.of_same rfl rfl rfl rfl rfl rfl
  | pollChecksum transfer okay => exact ⟨dropped, h.of_same rfl rfl rfl rfl rfl rfl⟩
  | pollData forced transfer okay copies => exact ⟨dropped, h.pollData crc8 hmeets⟩
  | masterEvent index clockwise => exact ⟨dropped, h.of_same rfl rfl rfl rfl rfl rfl⟩
  | masterDequeue =>
    refine ⟨dropped, ?_⟩
    simp only [SplitStep.exec, Watch.after]
    split
    · exact h
    · exact h.of_same rfl rfl rfl rfl rfl rfl

theorem Transferring.run : ∀ {steps : List (SplitStep cap)} {w : Watch} {s : SplitState cap} {dropped : Nat},
    Transferring w s dropped → AllMeet crc8 w s steps →
      ∃ dropped', Transferring (watchRun crc8 w s steps) (runSplit crc8 s steps) dropped' := by
  intro steps
  induction steps with
  | nil => exact fun h _ => ⟨_, h⟩
  | cons step steps ih =>
    intro w s dropped h hmeets
    obtain ⟨dropped', hstep⟩ := h.step crc8 hmeets.1
    exact ih hstep hmeets.2

theorem Transferring.exactly_once (h : Transferring w s dropped) :
    ∃ rest, s.queued = s.taken ++ rest ∧ rest <:+ s.slaveEvents.ring.contents := by
  refine ⟨s.queued.drop s.taken.length, ?_, ?_⟩
  · conv_rhs => rw [h.taken]
    rw [List.length_take, Nat.min_eq_left h.taken_le, List.take_append_drop]
  · have hall : s.slaveEvents.ring.contents = s.queued.drop dropped := by
      have hlast := h.last
      rw [h.slave.contents, List.take_of_length_le]
      rw [List.length_drop]
      omega
    have hdrop : s.queued.drop s.taken.length = (s.queued.drop dropped).drop (s.taken.length - dropped) := by
      rw [List.drop_drop, Nat.add_sub_of_le h.dropped_le]
    rw [hall, hdrop]
    exact List.drop_suffix _ _

theorem Transferring.counters (h : Transferring w s dropped) :
    s.slaveEvents.enqueued = UInt8.ofNat s.queued.length ∧
      (w.undropped = false → s.slaveEvents.dequeued = UInt8.ofNat s.taken.length) := by
  constructor
  · rw [h.slave.enqueued, h.last]
  · intro hdropped
    rw [h.slave.dequeued, h.all_dropped hdropped]

theorem Transferring.delivers (h : Transferring w s dropped) {forced : Bool} {copies : Nat}
    (hread : forced = true ∨ crc8 s.slaveEvents.bytes ≠ crc8 s.masterShmem.events.bytes)
    (hnew : s.lastChecksum ≠ crc8 s.slaveEvents.bytes) (hdropped : w.undropped = false)
    (hroom : (takeEvents cap s.slaveEvents s.masterEvents s.taken).1 = true) :
    (runSplit crc8 s [.publish, .pollChecksum .arrived true, .pollData forced .arrived true copies]).taken =
      s.queued := by
  let s₁ := runSplit crc8 s [.publish, .pollChecksum .arrived true]
  let w₁ := w.after crc8 s .publish
  have hpolled : Transferring w₁ s₁ dropped := (h.publish crc8).of_same rfl rfl rfl rfl rfl rfl
  have hrun : runSplit crc8 s [.publish, .pollChecksum .arrived true, .pollData forced .arrived true copies] =
      SplitStep.exec crc8 s₁ (.pollData forced .arrived true copies) := rfl
  let s₂ : SplitState cap :=
    { s₁ with
      polling := none
      masterShmem := { s₁.masterShmem with events := s.slaveEvents }
      damaged := false }
  have hres : afterRead crc8 forced .arrived true (crc8 s.slaveEvents.bytes) s₁ = (true, s₂) := by
    simp only [s₂, s₁, afterRead, readIfChecksumMismatch, runSplit, List.foldl_cons, List.foldl_nil, SplitStep.exec,
      Transfer.apply, if_true]
    rw [if_pos hread]
    simp
  have hcopied : Transferring (w₁.read crc8 forced .arrived (crc8 s.slaveEvents.bytes) s₁) s₂ dropped := by
    have hidle : Transferring w₁ { s₁ with polling := none } dropped := hpolled.of_same rfl rfl rfl rfl rfl rfl
    have hread' := hidle.read crc8 forced .arrived true (crc8 s.slaveEvents.bytes)
    rwa [show readIfChecksumMismatch crc8 forced .arrived true (crc8 s.slaveEvents.bytes)
      { s₁ with polling := none } = _ from hres] at hread'
  have hwatch : (w₁.read crc8 forced .arrived (crc8 s.slaveEvents.bytes) s₁).copied = ⟨false, false⟩ := by
    have hread : forced = true ∨ crc8 s.slaveEvents.bytes ≠ crc8 s₁.masterShmem.events.bytes := hread
    rw [Watch.read, if_pos hread]
    show CopyWatch.mk w.undropped false = _
    rw [hdropped]
  have hpoll : s₁.polling = some (crc8 s.slaveEvents.bytes) := rfl
  rw [hrun, exec_pollData crc8 hpoll, hres, if_pos rfl]
  have hnext : TakesNext (w₁.read crc8 forced .arrived (crc8 s.slaveEvents.bytes) s₁) s₂ := by
    refine ⟨by rw [hwatch], rfl, hroom⟩
  obtain ⟨hfinal, hlength⟩ := hcopied.handleEvents copies hnew hnext
  have hall := hfinal.taken
  rw [hlength (by rw [hwatch]), handleEvents_queued] at hall
  rw [hall]
  exact List.take_of_length_le (Nat.le_refl _)

/-- In every run that keeps the order, the events that the master took from the other half are the first ones queued
there, each once and in order, and the others are still in the queue there; and the next undisturbed poll takes all of
them, if the slave has dropped what was taken and the checksum tells that there is something new. -/
theorem encoder_events_transferred (hpos : 0 < cap) {steps : List (SplitStep cap)}
    (hmeets : AllMeet crc8 .start (.initial hpos) steps) :
    let s := runSplit crc8 (.initial hpos) steps
    let w := watchRun crc8 .start (.initial hpos) steps
    (∃ rest, s.queued = s.taken ++ rest ∧ rest <:+ s.slaveEvents.ring.contents) ∧
    (s.slaveEvents.enqueued = UInt8.ofNat s.queued.length ∧
      (w.undropped = false → s.slaveEvents.dequeued = UInt8.ofNat s.taken.length)) ∧
    ∀ forced copies, forced = true ∨ crc8 s.slaveEvents.bytes ≠ crc8 s.masterShmem.events.bytes →
      s.lastChecksum ≠ crc8 s.slaveEvents.bytes → w.undropped = false →
      (takeEvents cap s.slaveEvents s.masterEvents s.taken).1 = true →
      (runSplit crc8 s [.publish, .pollChecksum .arrived true, .pollData forced .arrived true copies]).taken =
        s.queued := by
  obtain ⟨dropped, h⟩ := Transferring.run crc8 (initial_transferring hpos) hmeets
  exact ⟨h.exactly_once, h.counters, fun _ _ hread hnew hdropped hroom => h.delivers crc8 hread hnew hdropped hroom⟩

end Transactions

theorem fourSlots_pos : 0 < 4 := by decide

/-- Three events. The first two are taken when a read of the checksum has been lost and one of the queue damaged, and
their drain comes twice; the third is published and read once more before its own drain comes. -/
def takenInTurn : List (SplitStep 4) :=
  [.slaveEvent 0 true, .slaveEvent 1 false, .publish, .pollChecksum .lost false, .pollData false .arrived true 1,
    .pollChecksum .arrived true, .pollData false (.damaged (.zero fourSlots_pos)) true 1, .pollChecksum .arrived true,
    .pollData false .arrived true 2, .masterDequeue, .drainArrives, .slaveTask, .drainArrives, .slaveTask,
    .slaveEvent 0 false, .publish, .pollChecksum .arrived true, .pollData false .arrived true 1, .masterEvent 2 true,
    .publish, .pollChecksum .arrived true, .pollData true .arrived true 1, .drainArrives, .slaveTask]

theorem encoder_events_transferred_inTurn :
    (∃ rest, (runSplit crc8 (.initial (by decide)) takenInTurn).queued =
        (runSplit crc8 (.initial (by decide)) takenInTurn).taken ++ rest ∧
      rest <:+ (runSplit crc8 (.initial (by decide)) takenInTurn).slaveEvents.ring.contents) ∧
    (runSplit crc8 (.initial (by decide)) takenInTurn).taken = [⟨0, true⟩, ⟨1, false⟩, ⟨0, false⟩] := by
  have hmeets : AllMeet crc8 .start (.initial (by decide)) takenInTurn := by decide +kernel
  obtain ⟨honce, -⟩ := encoder_events_transferred crc8 (by decide) hmeets
  have htaken : (runSplit crc8 (.initial (by decide)) takenInTurn).taken = [⟨0, true⟩, ⟨1, false⟩, ⟨0, false⟩] := by
    decide +kernel
  exact ⟨honce, htaken⟩

/-- The second event comes between the copy of the queue and the drain. -/
def betweenCopyAndDrain : List (SplitStep 4) :=
  [.slaveEvent 0 true, .publish, .slaveEvent 0 false, .pollChecksum .arrived true,
    .pollData false .arrived true 1, .drainArrives, .slaveTask]

/-- It is neither taken nor left in the queue. -/
theorem queued_while_taken :
    ¬ ∀ steps : List (SplitStep 4), let s := runSplit crc8 (.initial (by decide)) steps
      ∃ rest, s.queued = s.taken ++ rest ∧ rest <:+ s.slaveEvents.ring.contents := by
  intro h
  obtain ⟨rest, hqueued, hrest⟩ := h betweenCopyAndDrain
  have hempty : (runSplit crc8 (.initial (by decide)) betweenCopyAndDrain).slaveEvents.ring.contents = [] := by
    decide +kernel
  rw [hempty, List.suffix_nil] at hrest
  rw [hrest] at hqueued
  revert hqueued
  decide +kernel

end Split
end VialQmk
