import Mathlib.Data.List.Pairwise
import VialQmk.Deferred.Exec

/-!
# Deferred.Tokens

What a token of `deferred_exec.c` stands for.

* `deferred_tokens`: in each run, the tokens in the table are distinct, a token affects the executor that it was
  returned for while that is in the table, and a cancelled executor is never run again.
-/

namespace VialQmk
namespace Deferred

namespace Machine

variable {J : Type} (m : Machine J)

def DistinctTokens : Prop := ∀ i j e d, m.Live i e → m.Live j d → e.token = d.token → i = j

/-- With the token that was returned for an executor in the table, the calls affect this one alone. -/
def TokensIdentify : Prop :=
  ∀ serial token time delay, .queued serial token time delay ∈ m.log →
    ∀ i e, m.Live i e → e.serial = serial →
      (∀ delay ≠ 0, m.extendDeferredExec token delay = (true, { m with
        table := m.table.set i { e with triggerTime := m.timerRead32 + delay }
        log := .extended serial m.time delay :: m.log })) ∧
      m.cancelDeferredExec token =
        (true, { m with table := m.table.set i (.free J), log := .cancelled serial :: m.log })

end Machine

def NeverRunsAgain (log : List Event) : Prop :=
  log.Pairwise fun later earlier => ∀ serial time, later = .ran serial time → earlier ≠ .cancelled serial

namespace Machine

section Inv

variable {J : Type} {m m' : Machine J} {i j : Nat} {e d : Executor J}

def QueuedOnce (log : List Event) : Prop :=
  log.Pairwise fun later earlier => ∀ serial token time delay token' time' delay',
    later = .queued serial token time delay → earlier ≠ .queued serial token' time' delay'

structure Inv (m : Machine J) : Prop where
  distinct : m.DistinctTokens
  serial_inj : ∀ i j e d, m.Live i e → m.Live j d → e.serial = d.serial → i = j
  serial_lt : ∀ i e, m.Live i e → e.serial < m.serials
  queued_token : ∀ i e token time delay, m.Live i e → .queued e.serial token time delay ∈ m.log → token = e.token
  queued_lt : ∀ serial token time delay, .queued serial token time delay ∈ m.log → serial < m.serials
  cancelled_lt : ∀ serial, .cancelled serial ∈ m.log → serial < m.serials
  cancelled_dead : ∀ i e, m.Live i e → .cancelled e.serial ∉ m.log
  queued_once : QueuedOnce m.log
  never : NeverRunsAgain m.log

theorem Fresh.inv (h : m.Fresh) : m.Inv := by
  have hdead : ∀ i e, ¬ m.Live i e := fun i e hlive => hlive.2 (h.free e (List.mem_of_getElem? hlive.1))
  have hlog : ∀ event, event ∉ m.log := by
    intro event
    rw [h.log]
    exact List.not_mem_nil
  refine ⟨fun i j e d he => absurd he (hdead i e), fun i j e d he => absurd he (hdead i e),
    fun i e he => absurd he (hdead i e), fun i e _ _ _ he => absurd he (hdead i e),
    fun _ _ _ _ hmem => absurd hmem (hlog _), fun _ hmem => absurd hmem (hlog _),
    fun i e he => absurd he (hdead i e), ?_, ?_⟩
  · rw [h.log]
    exact List.Pairwise.nil
  · rw [h.log]
    exact List.Pairwise.nil

/-- The executors in the second table are executors of the first, with other trigger times perhaps. -/
def Keeps (m m' : Machine J) : Prop :=
  ∀ i d, m'.Live i d → ∃ e, m.Live i e ∧ e.token = d.token ∧ e.serial = d.serial

theorem keeps_of_table (htable : m'.table = m.table) : m.Keeps m' := fun _ d hlive =>
  ⟨d, ⟨htable ▸ hlive.1, hlive.2⟩, rfl, rfl⟩

theorem keeps_of_set (he : m.table[i]? = some e) (htable : m'.table = m.table.set i d)
    (hd : d.IsFree ∨ d.token = e.token ∧ d.serial = e.serial) : m.Keeps m' := by
  intro j x hlive
  rcases live_of_set htable hlive with ⟨rfl, rfl⟩ | ⟨-, hold⟩
  · rcases hd with hfree | ⟨htoken, hserial⟩
    · exact absurd hfree hlive.2
    · refine ⟨e, ⟨he, ?_⟩, htoken.symm, hserial.symm⟩
      rw [Executor.IsFree, ← htoken]
      exact hlive.2
  · exact ⟨x, hold, rfl, rfl⟩

namespace Inv

theorem of_keeps (h : m.Inv) (hkeeps : m.Keeps m') (hserials : m'.serials = m.serials) (hlog : m'.log = m.log) :
    m'.Inv where
  distinct i j e d he hd htoken := by
    obtain ⟨e', he', hte, -⟩ := hkeeps i e he
    obtain ⟨d', hd', htd, -⟩ := hkeeps j d hd
    exact h.distinct i j e' d' he' hd' (hte.trans (htoken.trans htd.symm))
  serial_inj i j e d he hd hserial := by
    obtain ⟨e', he', -, hse⟩ := hkeeps i e he
    obtain ⟨d', hd', -, hsd⟩ := hkeeps j d hd
    exact h.serial_inj i j e' d' he' hd' (hse.trans (hserial.trans hsd.symm))
  serial_lt i e he := by
    obtain ⟨e', he', -, hse⟩ := hkeeps i e he
    exact hserials ▸ hse ▸ h.serial_lt i e' he'
  queued_token i e token time delay he hmem := by
    obtain ⟨e', he', hte, hse⟩ := hkeeps i e he
    rw [hlog, ← hse] at hmem
    exact (h.queued_token i e' token time delay he' hmem).trans hte
  queued_lt serial token time delay hmem := hserials ▸ h.queued_lt serial token time delay (hlog ▸ hmem)
  cancelled_lt serial hmem := hserials ▸ h.cancelled_lt serial (hlog ▸ hmem)
  cancelled_dead i e he := by
    obtain ⟨e', he', -, hse⟩ := hkeeps i e he
    exact hlog ▸ hse ▸ h.cancelled_dead i e' he'
  queued_once := hlog ▸ h.queued_once
  never := hlog ▸ h.never

/-- An entry of the log that is no `queued`: it cancels what is in the table no more, or runs what was not cancelled. -/
theorem logged {event : Event} (h : m.Inv)
    (hqueued : ∀ serial token time delay, event ≠ .queued serial token time delay)
    (hcancelled : ∀ serial, event = .cancelled serial →
      serial < m.serials ∧ ∀ i e, m.Live i e → e.serial ≠ serial)
    (hran : ∀ serial time, event = .ran serial time → .cancelled serial ∉ m.log) :
    ({ m with log := event :: m.log } : Machine J).Inv where
  distinct := h.distinct
  serial_inj := h.serial_inj
  serial_lt := h.serial_lt
  queued_token i e token time delay he hmem := by
    rcases List.mem_cons.mp hmem with heq | hmem
    · exact absurd heq.symm (hqueued _ _ _ _)
    · exact h.queued_token i e token time delay he hmem
  queued_lt serial token time delay hmem := by
    rcases List.mem_cons.mp hmem with heq | hmem
    · exact absurd heq.symm (hqueued _ _ _ _)
    · exact h.queued_lt serial token time delay hmem
  cancelled_lt serial hmem := by
    rcases List.mem_cons.mp hmem with heq | hmem
    · exact (hcancelled serial heq.symm).1
    · exact h.cancelled_lt serial hmem
  cancelled_dead i e he hmem := by
    rcases List.mem_cons.mp hmem with heq | hmem
    · exact (hcancelled e.serial heq.symm).2 i e he rfl
    · exact h.cancelled_dead i e he hmem
  queued_once := by
    refine List.pairwise_cons.mpr ⟨fun earlier _ serial token time delay _ _ _ heq => ?_, h.queued_once⟩
    exact absurd heq (hqueued serial token time delay)
  never := by
    refine List.pairwise_cons.mpr ⟨fun earlier hmem serial time heq hearlier => ?_, h.never⟩
    exact hran serial time heq (hearlier ▸ hmem)

theorem live_queue {token : BitVec 8} {delay : BitVec 32} {job : J} (hlive : (m.queue i token delay job).Live j d) :
    (j = i ∧ d.token = token ∧ d.serial = m.serials) ∨ m.Live j d := by
  rcases live_of_set rfl hlive with ⟨hj, hd⟩ | ⟨-, hold⟩
  · rw [hd]
    exact .inl ⟨hj, rfl, rfl⟩
  · exact .inr hold

theorem ne_new {token : BitVec 8} (h : m.Inv) (husable : tokenCanBeUsed m.table token = true) (hlive : m.Live j d) :
    d.token ≠ token ∧ d.serial ≠ m.serials :=
  ⟨(tokenCanBeUsed_iff.mp husable).2 d (List.mem_of_getElem? hlive.1), Nat.ne_of_lt (h.serial_lt j d hlive)⟩

theorem queue {token : BitVec 8} {delay : BitVec 32} {job : J} (h : m.Inv)
    (husable : tokenCanBeUsed m.table token = true) : (m.queue i token delay job).Inv where
  distinct j k d x hd hx htoken := by
    rcases live_queue hd with ⟨hj, htd, -⟩ | hd' <;> rcases live_queue hx with ⟨hk, htx, -⟩ | hx'
    · exact hj.trans hk.symm
    · exact absurd (htoken.symm.trans htd) (h.ne_new husable hx').1
    · exact absurd (htoken.trans htx) (h.ne_new husable hd').1
    · exact h.distinct j k d x hd' hx' htoken
  serial_inj j k d x hd hx hserial := by
    rcases live_queue hd with ⟨hj, -, hsd⟩ | hd' <;> rcases live_queue hx with ⟨hk, -, hsx⟩ | hx'
    · exact hj.trans hk.symm
    · exact absurd (hserial.symm.trans hsd) (h.ne_new husable hx').2
    · exact absurd (hserial.trans hsx) (h.ne_new husable hd').2
    · exact h.serial_inj j k d x hd' hx' hserial
  serial_lt j d hd := by
    rcases live_queue hd with ⟨-, -, hsd⟩ | hd
    · exact hsd ▸ Nat.lt_succ_self _
    · exact Nat.lt_succ_of_lt (h.serial_lt j d hd)
  queued_token j d token' time delay' hd hmem := by
    rcases List.mem_cons.mp hmem with heq | hmem
    · injection heq with hserial htoken _ _
      rcases live_queue hd with ⟨-, htd, -⟩ | hd
      · exact htoken.trans htd.symm
      · exact absurd hserial (h.ne_new husable hd).2
    · rcases live_queue hd with ⟨-, -, hsd⟩ | hd
      · exact absurd (h.queued_lt _ _ _ _ hmem) (hsd ▸ Nat.lt_irrefl _)
      · exact h.queued_token j d token' time delay' hd hmem
  queued_lt serial token' time delay' hmem := by
    rcases List.mem_cons.mp hmem with heq | hmem
    · injection heq with hserial _ _ _
      exact hserial ▸ Nat.lt_succ_self _
    · exact Nat.lt_succ_of_lt (h.queued_lt _ _ _ _ hmem)
  cancelled_lt serial hmem := by
    rcases List.mem_cons.mp hmem with heq | hmem
    · cases heq
    · exact Nat.lt_succ_of_lt (h.cancelled_lt serial hmem)
  cancelled_dead j d hd hmem := by
    rcases List.mem_cons.mp hmem with heq | hmem
    · cases heq
    · rcases live_queue hd with ⟨-, -, hsd⟩ | hd
      · exact absurd (h.cancelled_lt _ hmem) (hsd ▸ Nat.lt_irrefl _)
      · exact h.cancelled_dead j d hd hmem
  queued_once := by
    refine List.pairwise_cons.mpr ⟨fun earlier hmem serial _ _ _ token' time' delay' heq hearlier => ?_,
      h.queued_once⟩
    injection heq with hserial _ _ _
    exact Nat.ne_of_gt (h.queued_lt serial token' time' delay' (hearlier ▸ hmem)) hserial
  never := by
    refine List.pairwise_cons.mpr ⟨fun earlier _ serial time heq => ?_, h.never⟩
    cases heq

theorem deferExec (h : m.Inv) (delay : BitVec 32) (job : Option J) : (m.deferExec delay job).2.Inv := by
  rcases deferExec_cases m delay job with ⟨current, heq⟩ | ⟨i, token, job', -, husable, -, -, -, heq⟩
  · rw [heq]
    exact h.of_keeps (keeps_of_table rfl) rfl rfl
  · rw [heq]
    exact h.queue husable

theorem extendDeferredExec (h : m.Inv) (token : BitVec 8) (delay : BitVec 32) :
    (m.extendDeferredExec token delay).2.Inv := by
  rcases extendDeferredExec_cases m token delay with heq | ⟨i, e, ⟨he, hused⟩, -, -, -, heq⟩
  · rw [heq]
    exact h
  · rw [heq]
    have hkept : Inv { m with table := m.table.set i { e with triggerTime := m.timerRead32 + delay } } :=
      h.of_keeps (keeps_of_set he rfl (.inr ⟨rfl, rfl⟩)) rfl rfl
    exact hkept.logged (fun _ _ _ _ => Event.noConfusion) (fun _ => Event.noConfusion) fun _ _ => Event.noConfusion

theorem cancelDeferredExec (h : m.Inv) (token : BitVec 8) : (m.cancelDeferredExec token).2.Inv := by
  rcases cancelDeferredExec_cases m token with heq | ⟨i, e, hlive, -, heq⟩
  · rw [heq]
    exact h
  · rw [heq]
    have hkeeps : m.Keeps { m with table := m.table.set i (.free J) } := keeps_of_set hlive.1 rfl (.inl rfl)
    refine (h.of_keeps hkeeps rfl rfl).logged (fun _ _ _ _ => Event.noConfusion) ?_ fun _ _ => Event.noConfusion
    intro serial hserial
    injection hserial with hserial
    subst hserial
    refine ⟨h.serial_lt i e hlive, fun j d hd hsame => ?_⟩
    obtain ⟨d', hd', -, hsd⟩ := hkeeps j d hd
    obtain hj := h.serial_inj j i d' e hd' hlive (hsd.trans hsame)
    rcases live_of_set rfl hd with ⟨-, hgone⟩ | ⟨hne, -⟩
    · rw [hgone] at hd
      exact hd.2 rfl
    · exact hne hj

theorem beginTask (h : m.Inv) : m.beginTask.Inv := by
  unfold Machine.beginTask
  split
  · exact h.of_keeps (keeps_of_table rfl) rfl rfl
  · exact h

theorem visit (h : m.Inv) (hcode : ¬ m.UserCode) : m.visit.Inv := by
  obtain ⟨scan, scans, -, -, ⟨-, heq⟩ | ⟨e, he, ⟨hdue, heq⟩ | ⟨-, heq⟩⟩⟩ := visit_cases hcode
  · rw [heq]
    exact h.of_keeps (keeps_of_table rfl) rfl rfl
  · rw [heq]
    have hkept : Inv { m with scans := { scan with running := some e.token } :: scans } :=
      h.of_keeps (keeps_of_table rfl) rfl rfl
    refine hkept.logged (fun _ _ _ _ => Event.noConfusion) (fun _ => Event.noConfusion) ?_
    intro serial time hran
    injection hran with hserial _
    exact hserial ▸ h.cancelled_dead scan.index e ⟨he, hdue.1⟩
  · rw [heq]
    exact h.of_keeps (keeps_of_table rfl) rfl rfl

theorem finish (h : m.Inv) (hscans : m.scans ≠ []) (hcode : m.UserCode) (delay : BitVec 32) :
    (m.finish delay).Inv := by
  obtain ⟨scan, scans, token, -, -, ⟨-, heq⟩ | ⟨e, he, ⟨-, heq⟩ | ⟨-, heq⟩⟩⟩ := finish_cases hscans hcode delay
  · rw [heq]
    exact h
  · rw [heq]
    exact h.of_keeps (keeps_of_table rfl) rfl rfl
  · rw [heq]
    have hset : (afterCallback e delay).IsFree ∨
        (afterCallback e delay).token = e.token ∧ (afterCallback e delay).serial = e.serial := by
      unfold afterCallback
      split
      · exact .inr ⟨rfl, rfl⟩
      · exact .inl rfl
    have hkept : Inv { m with
        scans := { scan with index := scan.index + 1, running := none } :: scans
        table := m.table.set scan.index (afterCallback e delay) } := h.of_keeps (keeps_of_set he rfl hset) rfl rfl
    by_cases hdelay : 0 < delay
    · simp only [if_pos hdelay]
      exact hkept.logged (fun _ _ _ _ => Event.noConfusion) (fun _ => Event.noConfusion) fun _ _ => Event.noConfusion
    · simp only [if_neg hdelay]
      exact hkept.logged (fun _ _ _ _ => Event.noConfusion) (fun _ => Event.noConfusion) fun _ _ => Event.noConfusion

theorem act {a : Action J} (h : m.Inv) (ha : m.Allowed a) : (m.act a).Inv := by
  cases a with
  | tick => exact h.of_keeps (keeps_of_table rfl) rfl rfl
  | elsewhere token => exact h.of_keeps (keeps_of_table rfl) rfl rfl
  | deferExec delay job => exact h.deferExec delay job
  | extendDeferredExec token delay => exact h.extendDeferredExec token delay
  | cancelDeferredExec token => exact h.cancelDeferredExec token
  | beginTask => exact h.beginTask
  | visit => exact h.visit ha
  | finish delay => exact h.finish ha.1 ha.2 delay

theorem findIdx?_eq (h : m.Inv) (hlive : m.Live i e) :
    (m.table.findIdx? fun d => d.token == e.token) = some i := by
  obtain ⟨hlt, heq⟩ := List.getElem?_eq_some_iff.mp hlive.1
  rw [List.findIdx?_eq_some_iff_getElem]
  refine ⟨hlt, by rw [heq, beq_iff_eq], fun j hj htoken => ?_⟩
  have hjlt := Nat.lt_trans hj hlt
  have hsame : m.table[j].token = e.token := eq_of_beq htoken
  have hused : ¬ m.table[j].IsFree := by
    rw [Executor.IsFree, hsame]
    exact hlive.2
  exact Nat.ne_of_lt hj (h.distinct j i _ e ⟨List.getElem?_eq_getElem hjlt, hused⟩ hlive hsame)

theorem length_ne_zero (hlive : m.Live i e) : m.table.length ≠ 0 := by
  obtain ⟨hlt, -⟩ := List.getElem?_eq_some_iff.mp hlive.1
  omega

theorem cancelDeferredExec_live (h : m.Inv) (hlive : m.Live i e) :
    m.cancelDeferredExec e.token =
      (true, { m with table := m.table.set i (.free J), log := .cancelled e.serial :: m.log }) := by
  rw [Machine.cancelDeferredExec, if_neg (fun hinvalid => ?_)]
  · simp only [h.findIdx?_eq hlive, hlive.1]
  · rcases hinvalid with h0 | h0
    · exact length_ne_zero hlive h0
    · exact hlive.2 h0

theorem tokensIdentify (h : m.Inv) : m.TokensIdentify := by
  rintro serial token time delay hmem i e hlive rfl
  obtain rfl := h.queued_token i e token time delay hlive hmem
  refine ⟨fun delay hdelay => ?_, h.cancelDeferredExec_live hlive⟩
  rw [Machine.extendDeferredExec, if_neg (fun hinvalid => ?_)]
  · simp only [h.findIdx?_eq hlive, hlive.1]
  · rcases hinvalid with h0 | h0 | h0
    · exact length_ne_zero hlive h0
    · exact hdelay h0
    · exact hlive.2 h0

end Inv

end Inv

end Machine

section Run

variable {J : Type} {Meets : Machine J → Action J → Prop} {m : Machine J}

theorem Run.inv (h : Run Meets m) : m.Inv := by
  induction h with
  | start hfresh => exact hfresh.inv
  | act _ ha _ ih => exact ih.act ha

/-- An executor is what its token says, whatever the callbacks call. -/
theorem deferred_tokens (h : Run Meets m) : m.DistinctTokens ∧ m.TokensIdentify ∧ NeverRunsAgain m.log :=
  ⟨h.inv.distinct, h.inv.tokensIdentify, h.inv.never⟩

end Run

/-- The callback cancels its own executor and sets up another in the same slot, which the task then leaves alone. -/
def cancelInside : List (Action Nat) :=
  [.deferExec 2 (some 0), .tick, .tick, .beginTask, .visit, .cancelDeferredExec 1, .deferExec 2 (some 1), .finish 7,
    .visit, .visit, .tick, .tick, .beginTask, .visit]

theorem deferred_tokens_cancel_inside :
    (cancelInside.foldl Machine.act (.fresh Nat 2)).log =
        [.ran 1 4, .queued 1 2 2 2, .cancelled 0, .ran 0 2, .queued 0 1 0 2] ∧
      (cancelInside.foldl Machine.act (.fresh Nat 2)).DistinctTokens ∧
      (cancelInside.foldl Machine.act (.fresh Nat 2)).TokensIdentify ∧
      NeverRunsAgain (cancelInside.foldl Machine.act (.fresh Nat 2)).log :=
  have hrun : Run (fun _ _ => True) (Machine.fresh Nat 2) := .start (Machine.fresh_fresh Nat 2)
  ⟨by decide, deferred_tokens (hrun.acts (by decide : Machine.MeetsAll (fun _ _ => True) _ cancelInside))⟩

end Deferred
end VialQmk
