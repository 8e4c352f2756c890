import VialQmk.Deferred.Tokens
import VialQmk.Lib.Clock

/-!
# Deferred.Early

When the callbacks of `deferred_exec.c` are invoked, against the time that the delays amount to.

* `due_of_isDue`: a task that reads the timer within half a turn of it finds no executor due too soon.
* `timely_run_not_early`: where each delay ends within half a turn of the next look at the slot, no callback is
  invoked before its time.
-/

namespace VialQmk
namespace Deferred

open Lib

/-- When an executor is to be run: a time since the start of the timer that has no turns. -/
def dueOf : List Event → Nat → Nat
  | [], _ => 0
  | .queued serial _ time delay :: log, x => if serial = x then time + delay.toNat else dueOf log x
  | .extended serial time delay :: log, x => if serial = x then time + delay.toNat else dueOf log x
  | .requeued serial delay :: log, x => if serial = x then dueOf log x + delay.toNat else dueOf log x
  | .cancelled _ :: log, x | .ran _ _ :: log, x | .ended _ :: log, x => dueOf log x

/-- Each run of an executor is behind the time that it was to be run at. -/
def NotEarly : List Event → Prop
  | [] => True
  | .ran serial time :: log => dueOf log serial ≤ time ∧ NotEarly log
  | .queued _ _ _ _ :: log | .extended _ _ _ :: log | .requeued _ _ :: log | .cancelled _ :: log
  | .ended _ :: log => NotEarly log

/-- An executor that nobody extends is not run before the delay that it was set up with has passed. -/
def DelaysElapse (log : List Event) : Prop :=
  ∀ newer older serial token time delay, log = newer ++ .queued serial token time delay :: older →
    (∀ time' delay', .extended serial time' delay' ∉ newer) →
    ∀ run, .ran serial run ∈ newer → time + delay.toNat ≤ run

namespace Machine

variable {J : Type} (m : Machine J)

def nextScan : Nat := m.time + untilLater (m.timerRead32 - m.lastExecutionTime)

def halfTurn : Nat := 2 ^ 31

end Machine

def Scan.Looks (scan : Scan) (i : Nat) : Prop := if scan.running = none then scan.index ≤ i else scan.index < i
deriving Decidable

namespace Machine

variable {J : Type} (m : Machine J)

/-- A time for the slot that is less than half a turn ahead of each reading of the timer that the slot will be
looked at with: those of the tasks that have not come to it, and the next one. -/
def Timely (scans : List Scan) (i due : Nat) : Prop :=
  (∀ scan ∈ scans, scan.Looks i → due < scan.begun + halfTurn) ∧ due < m.nextScan + halfTurn
deriving Decidable

def TimelyAt (due : Nat) : Option Nat → Prop
  | none => True
  | some i => m.Timely m.scans i due

instance (due : Nat) : (found : Option Nat) → Decidable (m.TimelyAt due found)
  | none => inferInstanceAs (Decidable True)
  | some i => inferInstanceAs (Decidable (m.Timely m.scans i due))

/-- The next time of an executor that its callback asks to run again. -/
def RequeueTimely (delay : BitVec 32) : Prop :=
  ∀ scan ∈ m.scans.head?, ∀ e ∈ m.table[scan.index]?, scan.running = some e.token → 0 < delay →
    m.Timely m.scans.tail scan.index (dueOf m.log e.serial + delay.toNat)
deriving Decidable

/-- Each delay that a step sets up ends within half a turn of the looks at the slot. -/
def InTime : Action J → Prop
  | .deferExec delay job =>
    job.isSome → delay ≠ 0 → (allocateToken m.table m.currentToken).1 ≠ invalidDeferredToken →
      m.TimelyAt (m.time + delay.toNat) (m.table.findIdx? fun e => e.token == invalidDeferredToken)
  | .extendDeferredExec token delay =>
    token ≠ invalidDeferredToken → delay ≠ 0 →
      m.TimelyAt (m.time + delay.toNat) (m.table.findIdx? fun e => e.token == token)
  | .finish delay => m.RequeueTimely delay
  | .tick | .elsewhere _ | .cancelDeferredExec _ | .beginTask | .visit => True

instance : (a : Action J) → Decidable (m.InTime a)
  | .deferExec delay job => inferInstanceAs (Decidable (job.isSome → delay ≠ 0 → _ → _))
  | .extendDeferredExec token delay => inferInstanceAs (Decidable (token ≠ _ → delay ≠ 0 → _))
  | .finish delay => inferInstanceAs (Decidable (m.RequeueTimely delay))
  | .tick | .elsewhere _ | .cancelDeferredExec _ | .beginTask | .visit => inferInstanceAs (Decidable True)

/-- The trigger times are the times of the executors on the timer. -/
structure Timed : Prop where
  trigger : ∀ i e, m.Live i e → e.triggerTime = clock m.start (dueOf m.log e.serial)
  timely : ∀ i e, m.Live i e → m.Timely m.scans i (dueOf m.log e.serial)
  scans : ∀ scan ∈ m.scans,
    scan.now = clock m.start scan.begun ∧ scan.begun ≤ m.time ∧ scan.running ≠ some invalidDeferredToken
  notEarly : NotEarly m.log

section Timed

variable {m m' : Machine J} {i : Nat} {e : Executor J}

theorem Fresh.timed (h : m.Fresh) : m.Timed := by
  have hdead : ∀ i e, ¬ m.Live i e := fun i e hlive => hlive.2 (h.free e (List.mem_of_getElem? hlive.1))
  refine ⟨fun i e he => absurd he (hdead i e), fun i e he => absurd he (hdead i e), fun scan hscan => ?_, ?_⟩
  · rw [h.scans] at hscan
    cases hscan
  · rw [h.log]
    trivial

theorem nextScan_tick : m.nextScan ≤ (m.act .tick).nextScan := by
  have hstep : (m.act .tick).timerRead32 - (m.act .tick).lastExecutionTime =
      m.timerRead32 - m.lastExecutionTime + 1 := by
    have hclock : (m.act .tick).timerRead32 = m.timerRead32 + 1 := clock_add m.start m.time 1
    rw [hclock]
    change m.timerRead32 + 1 - m.lastExecutionTime = _
    ring
  have hwait := untilLater_le_succ (m.timerRead32 - m.lastExecutionTime)
  unfold nextScan
  rw [hstep]
  change _ ≤ m.time + 1 + _
  omega

theorem nextScan_beginTask (hlater : 0 < (m.timerRead32 - m.lastExecutionTime).toInt) :
    m.nextScan = m.time ∧ m.time ≤ m.beginTask.nextScan := by
  refine ⟨?_, ?_⟩
  · rw [nextScan, untilLater, if_pos hlater, Nat.add_zero]
  · rw [beginTask, if_pos hlater]
    exact Nat.le_add_right _ _

/-- A task finds no executor due that is not, where it reads the timer within half a turn of the time. -/
theorem due_of_isDue {now : BitVec 32} {due begun : Nat} (hdue : IsDue e now)
    (htrigger : e.triggerTime = clock m.start due) (hnow : now = clock m.start begun)
    (hhalf : due < begun + halfTurn) : due ≤ begun := by
  by_contra hlt
  have hpos := clock_sub_pos (w := 31) m.start (Nat.lt_of_not_le hlt) hhalf
  rw [← htrigger, ← hnow] at hpos
  exact absurd hdue.2 (not_le.mpr hpos)

namespace Timed

/-- The table stays as it is, and each task that is to come to a slot was to come to it before. -/
theorem of_scans (h : m.Timed) (htable : m'.table = m.table) (hstart : m'.start = m.start)
    (hdue : dueOf m'.log = dueOf m.log) (hnext : m.nextScan ≤ m'.nextScan) (hlog : NotEarly m'.log)
    (hscans : ∀ scan' ∈ m'.scans, (∃ scan ∈ m.scans, scan.begun = scan'.begun ∧ scan.now = scan'.now ∧
      ∀ i, scan'.Looks i → scan.Looks i) ∧ scan'.running ≠ some invalidDeferredToken)
    (htime : m.time ≤ m'.time) : m'.Timed where
  trigger i e he := by
    rw [hstart, hdue]
    exact h.trigger i e ⟨htable ▸ he.1, he.2⟩
  timely i e he := by
    obtain ⟨hlooks, hafter⟩ := h.timely i e ⟨htable ▸ he.1, he.2⟩
    rw [hdue]
    refine ⟨fun scan' hscan' hi => ?_, by omega⟩
    obtain ⟨⟨scan, hscan, hbegun, -, hlook⟩, -⟩ := hscans scan' hscan'
    exact hbegun ▸ hlooks scan hscan (hlook i hi)
  scans scan' hscan' := by
    obtain ⟨⟨scan, hscan, hbegun, hnow, -⟩, hrunning⟩ := hscans scan' hscan'
    obtain ⟨hclock, hle, -⟩ := h.scans scan hscan
    rw [hstart, ← hbegun, ← hnow]
    exact ⟨hclock, Nat.le_trans hle htime, hrunning⟩
  notEarly := hlog

theorem of_table (h : m.Timed) (hstart : m'.start = m.start) (hscans : m'.scans = m.scans)
    (htime : m'.time = m.time) (hlog : NotEarly m'.log)
    (hlive : ∀ i d, m'.Live i d →
      (m.Live i d ∧ dueOf m'.log d.serial = dueOf m.log d.serial) ∨
        (d.triggerTime = clock m.start (dueOf m'.log d.serial) ∧
          m.Timely m.scans i (dueOf m'.log d.serial)))
    (hnext : m'.nextScan = m.nextScan) : m'.Timed where
  trigger i d hd := by
    rw [hstart]
    rcases hlive i d hd with ⟨hold, hdue⟩ | ⟨htrigger, -⟩
    · rw [hdue]
      exact h.trigger i d hold
    · exact htrigger
  timely i d hd := by
    rw [Timely, hscans, hnext]
    rcases hlive i d hd with ⟨hold, hdue⟩ | ⟨-, htimely⟩
    · rw [hdue]
      exact h.timely i d hold
    · exact htimely
  scans scan hscan := by
    rw [hstart, htime]
    exact h.scans scan (hscans ▸ hscan)
  notEarly := hlog

theorem tick (h : m.Timed) : (m.act .tick).Timed :=
  h.of_scans rfl rfl rfl nextScan_tick h.notEarly
    (fun scan hscan => ⟨⟨scan, hscan, rfl, rfl, fun _ hi => hi⟩, (h.scans scan hscan).2.2⟩) (Nat.le_succ _)

theorem elsewhere (h : m.Timed) (token : BitVec 8) : ({ m with currentToken := token } : Machine J).Timed :=
  h.of_table rfl rfl rfl h.notEarly (fun _ _ hlive => .inl ⟨hlive, rfl⟩) rfl

theorem deferExec {delay : BitVec 32} {job : Option J} (h : m.Timed) (hinv : m.Inv)
    (htime : m.InTime (.deferExec delay job)) : (m.deferExec delay job).2.Timed := by
  rcases deferExec_cases m delay job with ⟨current, heq⟩ | ⟨i, token, job', hslot, husable, hjob, hdelay, htoken, heq⟩
  · rw [heq]
    exact h.elsewhere current
  · have hlands : m.Timely m.scans i (m.time + delay.toNat) := by
      have hat := htime (hjob ▸ rfl) hdelay (htoken ▸ (tokenCanBeUsed_iff.mp husable).1)
      rwa [hslot] at hat
    rw [heq]
    refine h.of_table rfl rfl rfl h.notEarly (fun j d hlive => ?_) rfl
    rcases live_of_set rfl hlive with ⟨rfl, rfl⟩ | ⟨-, hold⟩
    · right
      have hdue : dueOf (m.queue j token delay job').log m.serials = m.time + delay.toNat := if_pos rfl
      rw [hdue, clock_add_toNat]
      exact ⟨rfl, hlands⟩
    · exact .inl ⟨hold, if_neg (Nat.ne_of_gt (hinv.serial_lt j d hold))⟩

theorem extendDeferredExec {token : BitVec 8} {delay : BitVec 32} (h : m.Timed) (hinv : m.Inv)
    (htime : m.InTime (.extendDeferredExec token delay)) : (m.extendDeferredExec token delay).2.Timed := by
  rcases extendDeferredExec_cases m token delay with heq | ⟨i, e, he, rfl, hdelay, hslot, heq⟩
  · rw [heq]
    exact h
  · have hlands : m.Timely m.scans i (m.time + delay.toNat) := by
      have hat := htime he.2 hdelay
      rwa [hslot] at hat
    rw [heq]
    refine h.of_table rfl rfl rfl h.notEarly (fun j d hlive => ?_) rfl
    rcases live_of_set rfl hlive with ⟨rfl, rfl⟩ | ⟨hne, hold⟩
    · right
      have hdue : dueOf (.extended e.serial m.time delay :: m.log) e.serial = m.time + delay.toNat := if_pos rfl
      rw [hdue, clock_add_toNat]
      exact ⟨rfl, hlands⟩
    · exact .inl ⟨hold, if_neg fun hsame => hne (hinv.serial_inj j i d e hold he hsame.symm)⟩

theorem cancelDeferredExec (h : m.Timed) (token : BitVec 8) : (m.cancelDeferredExec token).2.Timed := by
  rcases cancelDeferredExec_cases m token with heq | ⟨i, e, -, -, heq⟩
  · rw [heq]
    exact h
  · rw [heq]
    refine h.of_table rfl rfl rfl h.notEarly (fun j d hlive => ?_) rfl
    rcases live_of_set rfl hlive with ⟨-, rfl⟩ | ⟨-, hold⟩
    · exact absurd rfl hlive.2
    · exact .inl ⟨hold, rfl⟩

theorem beginTask (h : m.Timed) : m.beginTask.Timed := by
  by_cases hlater : 0 < (m.timerRead32 - m.lastExecutionTime).toInt
  · obtain ⟨hnow, hafter⟩ := nextScan_beginTask hlater
    have hbegin : m.beginTask = { m with
        lastExecutionTime := m.timerRead32
        scans := ⟨m.timerRead32, m.time, 0, none⟩ :: m.scans } := if_pos hlater
    rw [hbegin] at hafter ⊢
    refine ⟨h.trigger, fun i e he => ?_, fun scan hscan => ?_, h.notEarly⟩
    · obtain ⟨hlooks, hnext⟩ := h.timely i e he
      rw [hnow] at hnext
      refine ⟨fun scan hscan hi => ?_, Nat.lt_of_lt_of_le hnext (Nat.add_le_add_right hafter _)⟩
      rcases List.mem_cons.mp hscan with rfl | hscan
      · exact hnext
      · exact hlooks scan hscan hi
    · rcases List.mem_cons.mp hscan with rfl | hscan
      · exact ⟨rfl, Nat.le_refl _, nofun⟩
      · exact h.scans scan hscan
  · have hstay : m.beginTask = m := if_neg hlater
    rw [hstay]
    exact h

theorem visit (h : m.Timed) (hcode : ¬ m.UserCode) : m.visit.Timed := by
  obtain ⟨scan, scans, hcons, hrunning, hcases⟩ := visit_cases hcode
  have hscan : scan ∈ m.scans := hcons ▸ List.mem_cons_self
  have hrest : ∀ scan' ∈ scans, (∃ scan ∈ m.scans, scan.begun = scan'.begun ∧ scan.now = scan'.now ∧
      ∀ i, scan'.Looks i → scan.Looks i) ∧ scan'.running ≠ some invalidDeferredToken := by
    intro scan' hscan'
    have hmem : scan' ∈ m.scans := hcons ▸ List.mem_cons_of_mem _ hscan'
    exact ⟨⟨scan', hmem, rfl, rfl, fun _ hi => hi⟩, (h.scans scan' hmem).2.2⟩
  have hlook : ∀ i, scan.index ≤ i → scan.Looks i := fun i hi => by
    rw [Scan.Looks, if_pos hrunning]
    exact hi
  rcases hcases with ⟨-, heq⟩ | ⟨e, he, ⟨hdue, heq⟩ | ⟨-, heq⟩⟩
  · rw [heq]
    exact h.of_scans rfl rfl rfl (Nat.le_refl _) h.notEarly hrest (Nat.le_refl _)
  · obtain ⟨hclock, hbegun, -⟩ := h.scans scan hscan
    have hlive : m.Live scan.index e := ⟨he, hdue.1⟩
    have hhalf := (h.timely _ _ hlive).1 scan hscan (hlook _ (Nat.le_refl _))
    have hearly := due_of_isDue hdue (h.trigger _ _ hlive) hclock hhalf
    rw [heq]
    refine h.of_scans rfl rfl rfl (Nat.le_refl _) ⟨Nat.le_trans hearly hbegun, h.notEarly⟩ ?_ (Nat.le_refl _)
    intro scan' hscan'
    rcases List.mem_cons.mp hscan' with rfl | hscan'
    · refine ⟨⟨scan, hscan, rfl, rfl, fun i hi => hlook i (Nat.le_of_lt hi)⟩, fun heq => hdue.1 ?_⟩
      injection heq
    · exact hrest scan' hscan'
  · rw [heq]
    refine h.of_scans rfl rfl rfl (Nat.le_refl _) h.notEarly ?_ (Nat.le_refl _)
    intro scan' hscan'
    rcases List.mem_cons.mp hscan' with rfl | hscan'
    · refine ⟨⟨scan, hscan, rfl, rfl, fun i hi => hlook i ?_⟩, (h.scans scan hscan).2.2⟩
      rw [Scan.Looks, if_pos hrunning] at hi
      exact Nat.le_of_succ_le hi
    · exact hrest scan' hscan'

theorem moveOn {scan : Scan} {scans : List Scan} {token : BitVec 8} (h : m.Timed) (hcons : m.scans = scan :: scans)
    (hrunning : scan.running = some token) :
    ({ m with scans := { scan with index := scan.index + 1, running := none } :: scans } : Machine J).Timed := by
  refine h.of_scans rfl rfl rfl (Nat.le_refl _) h.notEarly ?_ (Nat.le_refl _)
  intro scan' hscan'
  rcases List.mem_cons.mp hscan' with rfl | hscan'
  · refine ⟨⟨scan, hcons ▸ List.mem_cons_self, rfl, rfl, fun i hi => ?_⟩, nofun⟩
    rw [Scan.Looks, if_neg (hrunning ▸ nofun)]
    exact hi
  · have hmem : scan' ∈ m.scans := hcons ▸ List.mem_cons_of_mem _ hscan'
    exact ⟨⟨scan', hmem, rfl, rfl, fun _ hi => hi⟩, (h.scans scan' hmem).2.2⟩

theorem finish {delay : BitVec 32} (h : m.Timed) (hinv : m.Inv) (hscans : m.scans ≠ []) (hcode : m.UserCode)
    (htime : m.RequeueTimely delay) : (m.finish delay).Timed := by
  obtain ⟨scan, scans, token, hcons, hrunning, hcases⟩ := finish_cases hscans hcode delay
  rcases hcases with ⟨-, heq⟩ | ⟨e, he, ⟨-, heq⟩ | ⟨htoken, heq⟩⟩
  · rw [heq]
    exact h
  · rw [heq]
    exact h.moveOn hcons hrunning
  have hlive : m.Live scan.index e := by
    refine ⟨he, fun hfree => (h.scans scan (hcons ▸ List.mem_cons_self)).2.2 ?_⟩
    rw [hrunning, ← htoken]
    exact congrArg some hfree
  rw [heq]
  refine (h.moveOn hcons hrunning).of_table rfl rfl rfl ?_ (fun j d hd => ?_) rfl
  · split
    · exact h.notEarly
    · exact h.notEarly
  rcases live_of_set rfl hd with ⟨rfl, rfl⟩ | ⟨hne, hold⟩
  · -- the slot of the callback holds an executor that goes on
    by_cases hdelay : 0 < delay
    · right
      have hafter : afterCallback e delay = { e with triggerTime := e.triggerTime + delay } := if_pos hdelay
      have hdue : dueOf (.requeued e.serial delay :: m.log) e.serial = dueOf m.log e.serial + delay.toNat :=
        if_pos rfl
      have hlands : m.Timely scans scan.index (dueOf m.log e.serial + delay.toNat) := by
        unfold RequeueTimely at htime
        rw [hcons] at htime
        exact htime scan rfl e he (hrunning.trans (congrArg some htoken.symm)) hdelay
      simp only [if_pos hdelay, hafter]
      rw [hdue, clock_add_toNat, h.trigger _ _ hlive]
      refine ⟨rfl, fun scan' hscan' hi => ?_, hlands.2⟩
      rcases List.mem_cons.mp hscan' with rfl | hscan'
      · exact absurd hi (Nat.not_succ_le_self _)
      · exact hlands.1 scan' hscan' hi
    · have hafter : afterCallback e delay = .free J := if_neg hdelay
      rw [hafter] at hd
      exact absurd rfl hd.2
  · left
    refine ⟨hold, ?_⟩
    have hother : e.serial ≠ d.serial := fun hsame => hne (hinv.serial_inj j _ d e hold hlive hsame.symm)
    split
    · exact if_neg hother
    · rfl

theorem act {a : Action J} (h : m.Timed) (hinv : m.Inv) (ha : m.Allowed a) (htime : m.InTime a) :
    (m.act a).Timed := by
  cases a with
  | tick => exact h.tick
  | elsewhere token => exact h.elsewhere token
  | deferExec delay job => exact h.deferExec hinv htime
  | extendDeferredExec token delay => exact h.extendDeferredExec hinv htime
  | cancelDeferredExec token => exact h.cancelDeferredExec token
  | beginTask => exact h.beginTask
  | visit => exact h.visit ha
  | finish delay => exact h.finish hinv ha.1 ha.2 htime

end Timed

end Timed

end Machine

section Log

variable {newer older : List Event} {serial time : Nat} {token : BitVec 8} {delay : BitVec 32}

theorem dueOf_ge (hextended : ∀ time' delay', .extended serial time' delay' ∉ newer)
    (hqueued : ∀ token' time' delay', .queued serial token' time' delay' ∉ newer) :
    time + delay.toNat ≤ dueOf (newer ++ .queued serial token time delay :: older) serial := by
  induction newer with
  | nil => exact Nat.le_of_eq (if_pos rfl).symm
  | cons event newer ih =>
    have hrest := ih (fun t d hmem => hextended t d (List.mem_cons_of_mem _ hmem))
      fun k t d hmem => hqueued k t d (List.mem_cons_of_mem _ hmem)
    cases event with
    | queued x k t d =>
      have hne : x ≠ serial := fun heq => hqueued k t d (heq ▸ List.mem_cons_self)
      exact hrest.trans_eq (if_neg hne).symm
    | extended x t d =>
      have hne : x ≠ serial := fun heq => hextended t d (heq ▸ List.mem_cons_self)
      exact hrest.trans_eq (if_neg hne).symm
    | requeued x d =>
      rw [List.cons_append, dueOf]
      split
      · exact Nat.le_add_right_of_le hrest
      · exact hrest
    | cancelled x => exact hrest
    | ran x t => exact hrest
    | ended x => exact hrest

theorem NotEarly.of_append (h : NotEarly (newer ++ older)) : NotEarly older := by
  induction newer with
  | nil => exact h
  | cons event newer ih =>
    cases event with
    | ran serial time => exact ih h.2
    | queued | extended | requeued | cancelled | ended => exact ih h

theorem NotEarly.delaysElapse {log : List Event} (h : NotEarly log) (honce : Machine.QueuedOnce log) :
    DelaysElapse log := by
  rintro newer older serial token time delay rfl hextended run hran
  obtain ⟨later, between, rfl⟩ := List.append_of_mem hran
  rw [List.append_assoc] at h honce
  have hrun : dueOf (between ++ .queued serial token time delay :: older) serial ≤ run := h.of_append.1
  refine Nat.le_trans (dueOf_ge (fun t d hmem => ?_) fun k t d hmem => ?_) hrun
  · exact hextended t d (List.mem_append_right _ (List.mem_cons_of_mem _ hmem))
  · have hpair := (List.pairwise_append.mp (List.pairwise_append.mp honce).2.1.of_cons).2.2
    exact hpair _ hmem _ List.mem_cons_self serial k t d token time delay rfl rfl

end Log

section Run

variable {J : Type} {m : Machine J}

theorem Run.timed (h : Run Machine.InTime m) : m.Timed := by
  induction h with
  | start hfresh => exact hfresh.timed
  | act hrun ha htime ih => exact ih.act hrun.inv ha htime

/-- Where each delay ends within half a turn of the timer, no callback is invoked before its time. -/
theorem timely_run_not_early (h : Run Machine.InTime m) : NotEarly m.log ∧ DelaysElapse m.log :=
  ⟨h.timed.notEarly, h.timed.notEarly.delaysElapse h.inv.queued_once⟩

end Run

def repeated : List (Action Nat) :=
  [.deferExec 2 (some 0), .tick, .beginTask, .visit, .visit, .tick, .beginTask, .visit, .finish 3, .visit,
    .tick, .beginTask, .visit, .visit, .tick, .beginTask, .visit, .visit, .tick, .beginTask, .visit]

theorem timely_run_not_early_repeated :
    (repeated.foldl Machine.act (.fresh Nat 1)).log = [.ran 0 5, .requeued 0 3, .ran 0 2, .queued 0 1 0 2] ∧
      NotEarly (repeated.foldl Machine.act (.fresh Nat 1)).log ∧
      DelaysElapse (repeated.foldl Machine.act (.fresh Nat 1)).log :=
  have hrun : Run Machine.InTime (Machine.fresh Nat 1) := .start (Machine.fresh_fresh Nat 1)
  ⟨by decide, timely_run_not_early (hrun.acts (by decide))⟩

/-- A delay of more than half a turn seems to be over at the next look. -/
def halfTurnDelay : List (Action Nat) := [.deferExec 0x80000001 (some 0), .tick, .beginTask, .visit]

theorem long_delay_runs_at_once :
    Run (fun _ _ => True) (halfTurnDelay.foldl Machine.act (.fresh Nat 1)) ∧
      ¬ DelaysElapse (halfTurnDelay.foldl Machine.act (.fresh Nat 1)).log := by
  have hrun : Run (fun _ _ => True) (Machine.fresh Nat 1) := .start (Machine.fresh_fresh Nat 1)
  refine ⟨hrun.acts (by decide : Machine.MeetsAll (fun _ _ => True) _ halfTurnDelay), fun helapse => ?_⟩
  have hlog : (halfTurnDelay.foldl Machine.act (.fresh Nat 1)).log =
      [.ran 0 1] ++ .queued 0 1 0 0x80000001 :: [] := by decide
  have hle := helapse _ _ _ _ _ _ hlog (by simp) 1 (by simp)
  exact absurd hle (by decide)

end Deferred
end VialQmk
