import Mathlib.Data.BitVec
import Mathlib.Tactic.Common

/-!
# Deferred.Exec

A table of deferred executors (`deferred_exec.c`), as a machine that takes one small step after another: a call of
the API by the user's code, a look of a task at one slot, the end of a callback, or the passing of a millisecond.
A callback is user code, so whatever that can call, a callback can call while the task waits for it.

* `allocateLoop_spec`: a token is found where one can be used.
* `deferExec_cases` to `finish_cases`: what a step can do.
-/

namespace VialQmk
namespace Deferred

/-- `deferred_executor_t`. The callback and its argument are one job; `serial` counts the executors that were set
up, and is no part of the source's entry. -/
structure Executor (J : Type) where
  token : BitVec 8
  triggerTime : BitVec 32
  job : Option J
  serial : Nat
deriving DecidableEq, Repr

def invalidDeferredToken : BitVec 8 := 0

def Executor.IsFree {J : Type} (e : Executor J) : Prop := e.token = invalidDeferredToken
deriving Decidable

def Executor.free (J : Type) : Executor J := ⟨invalidDeferredToken, 0, none, 0⟩

def tokenCanBeUsed {J : Type} (table : List (Executor J)) (token : BitVec 8) : Bool :=
  token != invalidDeferredToken && table.all fun e => e.token != token

/-- The loop of `allocate_token`, with the new `current_token`; it is round after 256 values. -/
def allocateLoop {J : Type} (table : List (Executor J)) (first : BitVec 8) : Nat → BitVec 8 → BitVec 8 × BitVec 8
  | 0, current => (invalidDeferredToken, current)
  | n + 1, current =>
    if tokenCanBeUsed table current then (current, current)
    else if current + 1 = first then (invalidDeferredToken, current + 1)
    else allocateLoop table first n (current + 1)

def allocateToken {J : Type} (table : List (Executor J)) (currentToken : BitVec 8) : BitVec 8 × BitVec 8 :=
  allocateLoop table (currentToken + 1) 256 (currentToken + 1)

/-- What happens to the executors, each under its serial number, at a time in milliseconds. -/
inductive Event where
  | queued (serial : Nat) (token : BitVec 8) (time : Nat) (delay : BitVec 32)
  | extended (serial : Nat) (time : Nat) (delay : BitVec 32)
  | cancelled (serial : Nat)
  | ran (serial : Nat) (time : Nat)
  | requeued (serial : Nat) (delay : BitVec 32)
  | ended (serial : Nat)
deriving DecidableEq, Repr

/-- A call of `deferred_exec_advanced_task` on its way through the table: what the timer said when it began, the
slot it has come to, and the token of the executor whose callback it waits for. -/
structure Scan where
  now : BitVec 32
  begun : Nat
  index : Nat
  running : Option (BitVec 8)
deriving DecidableEq, Repr

/-- A table with the variables about it, the calls of the task that are under way (the innermost first), the time
in milliseconds since the timer was `start`, and what has happened, the newest first. -/
structure Machine (J : Type) where
  table : List (Executor J)
  currentToken : BitVec 8
  lastExecutionTime : BitVec 32
  scans : List Scan
  start : BitVec 32
  time : Nat
  serials : Nat
  log : List Event

namespace Machine

variable {J : Type} (m : Machine J)

def timerRead32 : BitVec 32 := m.start + BitVec.ofNat 32 m.time

def queue (i : Nat) (token : BitVec 8) (delay : BitVec 32) (job : J) : Machine J :=
  { m with
    currentToken := token
    table := m.table.set i ⟨token, m.timerRead32 + delay, some job, m.serials⟩
    serials := m.serials + 1
    log := .queued m.serials token m.time delay :: m.log }

def deferExec (delay : BitVec 32) (job : Option J) : BitVec 8 × Machine J :=
  match job with
  | none => (invalidDeferredToken, m)
  | some job =>
    if m.table.length = 0 ∨ delay = 0 then (invalidDeferredToken, m)
    else
      match m.table.findIdx? fun e => e.token == invalidDeferredToken with
      | none => (invalidDeferredToken, m)
      | some i =>
        let (token, current) := allocateToken m.table m.currentToken
        if token = invalidDeferredToken then (invalidDeferredToken, { m with currentToken := current })
        else (current, m.queue i current delay job)

def extendDeferredExec (token : BitVec 8) (delay : BitVec 32) : Bool × Machine J :=
  if m.table.length = 0 ∨ delay = 0 ∨ token = invalidDeferredToken then (false, m)
  else
    match m.table.findIdx? fun e => e.token == token with
    | none => (false, m)
    | some i =>
      match m.table[i]? with
      | none => (false, m)
      | some e =>
        (true, { m with
          table := m.table.set i { e with triggerTime := m.timerRead32 + delay }
          log := .extended e.serial m.time delay :: m.log })

def cancelDeferredExec (token : BitVec 8) : Bool × Machine J :=
  if m.table.length = 0 ∨ token = invalidDeferredToken then (false, m)
  else
    match m.table.findIdx? fun e => e.token == token with
    | none => (false, m)
    | some i =>
      match m.table[i]? with
      | none => (false, m)
      | some e => (true, { m with table := m.table.set i (.free J), log := .cancelled e.serial :: m.log })

def beginTask : Machine J :=
  if 0 < (m.timerRead32 - m.lastExecutionTime).toInt then
    { m with
      lastExecutionTime := m.timerRead32
      scans := ⟨m.timerRead32, m.time, 0, none⟩ :: m.scans }
  else m

def IsDue {J : Type} (e : Executor J) (now : BitVec 32) : Prop :=
  e.token ≠ invalidDeferredToken ∧ (e.triggerTime - now).toInt ≤ 0
deriving Decidable

/-- The innermost task looks at a slot, and invokes the callback of an executor that is due. -/
def visit : Machine J :=
  match m.scans with
  | [] => m
  | scan :: scans =>
    match m.table[scan.index]? with
    | none => { m with scans := scans }
    | some e =>
      if IsDue e scan.now then
        { m with
          scans := { scan with running := some e.token } :: scans
          log := .ran e.serial m.time :: m.log }
      else { m with scans := { scan with index := scan.index + 1 } :: scans }

def afterCallback {J : Type} (e : Executor J) (delay : BitVec 32) : Executor J :=
  if 0 < delay then { e with triggerTime := e.triggerTime + delay } else .free J

/-- The callback returns, and the task goes on with the next slot. -/
def finish (delay : BitVec 32) : Machine J :=
  match m.scans with
  | [] => m
  | scan :: scans =>
    match scan.running, m.table[scan.index]? with
    | some token, some e =>
      let scans := { scan with index := scan.index + 1, running := none } :: scans
      if e.token ≠ token then { m with scans := scans }
      else
        { m with
          scans := scans
          table := m.table.set scan.index (afterCallback e delay)
          log := (if 0 < delay then .requeued e.serial delay else .ended e.serial) :: m.log }
    | _, _ => m

end Machine

/-- `elsewhere` is any use of the other tables, which share `current_token`. -/
inductive Action (J : Type) where
  | tick
  | elsewhere (token : BitVec 8)
  | deferExec (delay : BitVec 32) (job : Option J)
  | extendDeferredExec (token : BitVec 8) (delay : BitVec 32)
  | cancelDeferredExec (token : BitVec 8)
  | beginTask
  | visit
  | finish (delay : BitVec 32)

namespace Machine

variable {J : Type} (m : Machine J)

/-- The user's code runs: outside the tasks, or in the callback that the innermost one waits for. -/
def UserCode : Prop :=
  match m.scans with
  | [] => True
  | scan :: _ => scan.running ≠ none

def Allowed : Action J → Prop
  | .tick => True
  | .elsewhere _ | .deferExec _ _ | .extendDeferredExec _ _ | .cancelDeferredExec _ | .beginTask => m.UserCode
  | .visit => ¬ m.UserCode
  | .finish _ => m.scans ≠ [] ∧ m.UserCode

instance : Decidable m.UserCode :=
  match h : m.scans with
  | [] => isTrue (by rw [UserCode, h]; trivial)
  | scan :: _ => decidable_of_iff (scan.running ≠ none) (by rw [UserCode, h])

instance : (a : Action J) → Decidable (m.Allowed a)
  | .tick => inferInstanceAs (Decidable True)
  | .elsewhere _ | .deferExec _ _ | .extendDeferredExec _ _ | .cancelDeferredExec _ | .beginTask =>
    inferInstanceAs (Decidable m.UserCode)
  | .visit => inferInstanceAs (Decidable (¬ m.UserCode))
  | .finish _ => inferInstanceAs (Decidable (_ ∧ _))

def act : Action J → Machine J
  | .tick => { m with time := m.time + 1 }
  | .elsewhere token => { m with currentToken := token }
  | .deferExec delay job => (m.deferExec delay job).2
  | .extendDeferredExec token delay => (m.extendDeferredExec token delay).2
  | .cancelDeferredExec token => (m.cancelDeferredExec token).2
  | .beginTask => m.beginTask
  | .visit => m.visit
  | .finish delay => m.finish delay

/-- An empty table; the tokens and the timers are anywhere. -/
structure Fresh : Prop where
  free : ∀ e ∈ m.table, e.IsFree
  scans : m.scans = []
  log : m.log = []

end Machine

/-- The machines that allowed steps reach, each of which meets a condition. -/
inductive Run {J : Type} (Meets : Machine J → Action J → Prop) : Machine J → Prop where
  | start {m : Machine J} : m.Fresh → Run Meets m
  | act {m : Machine J} {a : Action J} : Run Meets m → m.Allowed a → Meets m a → Run Meets (m.act a)

/-- A list of steps, each allowed and meeting the condition where it is taken. -/
def Machine.MeetsAll {J : Type} (Meets : Machine J → Action J → Prop) : Machine J → List (Action J) → Prop
  | _, [] => True
  | m, a :: as => (m.Allowed a ∧ Meets m a) ∧ MeetsAll Meets (m.act a) as

instance Machine.decidableMeetsAll {J : Type} {Meets : Machine J → Action J → Prop}
    [∀ m a, Decidable (Meets m a)] : (m : Machine J) → (as : List (Action J)) → Decidable (m.MeetsAll Meets as)
  | _, [] => inferInstanceAs (Decidable True)
  | m, a :: as => @instDecidableAnd _ _ _ (decidableMeetsAll (m.act a) as)

theorem Run.acts {J : Type} {Meets : Machine J → Action J → Prop} {as : List (Action J)} :
    ∀ {m : Machine J}, Run Meets m → m.MeetsAll Meets as → Run Meets (as.foldl Machine.act m) := by
  induction as with
  | nil => exact fun h _ => h
  | cons a as ih => exact fun h hmeets => ih (h.act hmeets.1.1 hmeets.1.2) hmeets.2

/-- A table of free slots, with the timer about to turn to 1 ms. -/
def Machine.fresh (J : Type) (n : Nat) : Machine J where
  table := List.replicate n (.free J)
  currentToken := 0
  lastExecutionTime := 0
  scans := []
  start := 0
  time := 0
  serials := 0
  log := []

theorem Machine.fresh_fresh (J : Type) (n : Nat) : (Machine.fresh J n).Fresh where
  free e he := by
    rw [List.eq_of_mem_replicate he]
    rfl
  scans := rfl
  log := rfl

section Allocate

variable {J : Type} {table : List (Executor J)} {first token : BitVec 8}

theorem tokenCanBeUsed_iff :
    tokenCanBeUsed table token = true ↔ token ≠ invalidDeferredToken ∧ ∀ e ∈ table, e.token ≠ token := by
  rw [tokenCanBeUsed, Bool.and_eq_true, bne_iff_ne, List.all_eq_true]
  simp only [bne_iff_ne]

/-- After `k` values that cannot be used, with as many turns left as there are other values. -/
theorem allocateLoop_spec (table : List (Executor J)) (first : BitVec 8) {k n : Nat} (hkn : k + n = 256)
    (hbefore : ∀ j < k, tokenCanBeUsed table (first + BitVec.ofNat 8 j) = false) :
    (∃ token, tokenCanBeUsed table token = true ∧
        allocateLoop table first n (first + BitVec.ofNat 8 k) = (token, token)) ∨
      (allocateLoop table first n (first + BitVec.ofNat 8 k)).1 = invalidDeferredToken ∧
        ∀ token, tokenCanBeUsed table token = false := by
  have hround : (∀ j < 256, tokenCanBeUsed table (first + BitVec.ofNat 8 j) = false) →
      ∀ token, tokenCanBeUsed table token = false := by
    intro hall token
    have hat := hall (token - first).toNat (BitVec.isLt _)
    rwa [BitVec.ofNat_toNat, BitVec.setWidth_eq, BitVec.add_comm, BitVec.sub_add_cancel] at hat
  induction n generalizing k with
  | zero =>
    obtain rfl : k = 256 := by omega
    exact .inr ⟨rfl, hround hbefore⟩
  | succ n ih =>
    have hnext : first + BitVec.ofNat 8 k + 1 = first + BitVec.ofNat 8 (k + 1) := by
      rw [BitVec.add_assoc, BitVec.ofNat_add]
      rfl
    rw [allocateLoop]
    cases husable : tokenCanBeUsed table (first + BitVec.ofNat 8 k) with
    | true => exact .inl ⟨_, husable, if_pos rfl⟩
    | false =>
      have hbefore' : ∀ j < k + 1, tokenCanBeUsed table (first + BitVec.ofNat 8 j) = false := by
        intro j hj
        rcases Nat.lt_succ_iff_lt_or_eq.mp hj with hlt | rfl
        · exact hbefore j hlt
        · exact husable
      rw [if_neg Bool.false_ne_true, hnext]
      by_cases hfirst : first + BitVec.ofNat 8 (k + 1) = first
      · rw [if_pos hfirst]
        have hlast : k + 1 = 256 := by
          have hnat := congrArg BitVec.toNat hfirst
          rw [BitVec.toNat_add, BitVec.toNat_ofNat] at hnat
          have hlt := first.isLt
          omega
        exact .inr ⟨rfl, hround (hlast ▸ hbefore')⟩
      · rw [if_neg hfirst]
        exact ih (by omega) hbefore'

theorem allocateToken_spec (table : List (Executor J)) (currentToken : BitVec 8) :
    (∃ token, tokenCanBeUsed table token = true ∧ allocateToken table currentToken = (token, token)) ∨
      (allocateToken table currentToken).1 = invalidDeferredToken ∧
        ∀ token, tokenCanBeUsed table token = false := by
  have h := allocateLoop_spec table (currentToken + 1) (k := 0) (n := 256) rfl
    fun _ hj => absurd hj (Nat.not_lt_zero _)
  rwa [BitVec.ofNat_eq_ofNat, BitVec.add_zero] at h

end Allocate

namespace Machine

variable {J : Type} {m : Machine J} {token : BitVec 8} {delay : BitVec 32}

def Live (m : Machine J) (i : Nat) (e : Executor J) : Prop := m.table[i]? = some e ∧ ¬ e.IsFree

theorem findIdx?_token {i : Nat} (h : (m.table.findIdx? fun e => e.token == token) = some i) :
    ∃ e, m.table[i]? = some e ∧ e.token = token := by
  obtain ⟨hlt, htoken, -⟩ := List.findIdx?_eq_some_iff_getElem.mp h
  exact ⟨m.table[i], List.getElem?_eq_getElem hlt, eq_of_beq htoken⟩

theorem live_of_set {m' : Machine J} {i j : Nat} {x d : Executor J} (htable : m'.table = m.table.set i x)
    (h : m'.Live j d) : (j = i ∧ d = x) ∨ (j ≠ i ∧ m.Live j d) := by
  obtain ⟨hd, hused⟩ := h
  rw [htable] at hd
  by_cases hij : i = j
  · subst hij
    have hlt : i < m.table.length := by
      obtain ⟨hlt, -⟩ := List.getElem?_eq_some_iff.mp hd
      rwa [List.length_set] at hlt
    rw [List.getElem?_set_self hlt] at hd
    cases hd
    exact .inl ⟨rfl, rfl⟩
  · rw [List.getElem?_set_ne hij] at hd
    exact .inr ⟨Ne.symm hij, hd, hused⟩

theorem deferExec_cases (m : Machine J) (delay : BitVec 32) (job : Option J) :
    (∃ current, m.deferExec delay job = (invalidDeferredToken, { m with currentToken := current })) ∨
      ∃ i token job', (m.table.findIdx? fun e => e.token == invalidDeferredToken) = some i ∧
        tokenCanBeUsed m.table token = true ∧ job = some job' ∧ delay ≠ 0 ∧
        allocateToken m.table m.currentToken = (token, token) ∧
        m.deferExec delay job = (token, m.queue i token delay job') := by
  unfold deferExec
  cases job with
  | none => exact .inl ⟨m.currentToken, rfl⟩
  | some job =>
    simp only
    split
    · exact .inl ⟨m.currentToken, rfl⟩
    · rename_i hvalid
      cases hfound : m.table.findIdx? fun e => e.token == invalidDeferredToken with
      | none => exact .inl ⟨m.currentToken, rfl⟩
      | some i =>
        rcases allocateToken_spec m.table m.currentToken with ⟨token, husable, htoken⟩ | ⟨hnone, -⟩
        · have hused := (tokenCanBeUsed_iff.mp husable).1
          simp only [htoken, if_neg hused]
          exact .inr ⟨i, token, job, rfl, husable, rfl, fun h0 => hvalid (.inr h0), rfl, rfl⟩
        · simp only [hnone, if_true]
          exact .inl ⟨_, rfl⟩

theorem extendDeferredExec_cases (m : Machine J) (token : BitVec 8) (delay : BitVec 32) :
    m.extendDeferredExec token delay = (false, m) ∨
      ∃ i e, m.Live i e ∧ e.token = token ∧ delay ≠ 0 ∧ (m.table.findIdx? fun d => d.token == token) = some i ∧
        m.extendDeferredExec token delay = (true, { m with
        table := m.table.set i { e with triggerTime := m.timerRead32 + delay }
        log := .extended e.serial m.time delay :: m.log }) := by
  unfold extendDeferredExec
  split
  · exact .inl rfl
  · rename_i hvalid
    cases hfound : m.table.findIdx? fun e => e.token == token with
    | none => exact .inl rfl
    | some i =>
      obtain ⟨e, he, rfl⟩ := findIdx?_token hfound
      simp only [he]
      exact .inr ⟨i, e, ⟨he, fun hfree => hvalid (.inr (.inr hfree))⟩, rfl, fun h0 => hvalid (.inr (.inl h0)),
        rfl, rfl⟩

theorem cancelDeferredExec_cases (m : Machine J) (token : BitVec 8) :
    m.cancelDeferredExec token = (false, m) ∨
      ∃ i e, m.Live i e ∧ e.token = token ∧ m.cancelDeferredExec token =
        (true, { m with table := m.table.set i (.free J), log := .cancelled e.serial :: m.log }) := by
  unfold cancelDeferredExec
  split
  · exact .inl rfl
  · rename_i hvalid
    cases hfound : m.table.findIdx? fun e => e.token == token with
    | none => exact .inl rfl
    | some i =>
      obtain ⟨e, he, rfl⟩ := findIdx?_token hfound
      simp only [he]
      exact .inr ⟨i, e, ⟨he, fun hfree => hvalid (.inr hfree)⟩, rfl, rfl⟩

theorem visit_cases (h : ¬ m.UserCode) :
    ∃ scan scans, m.scans = scan :: scans ∧ scan.running = none ∧
      ((m.table[scan.index]? = none ∧ m.visit = { m with scans := scans }) ∨
        ∃ e, m.table[scan.index]? = some e ∧
          ((IsDue e scan.now ∧ m.visit = { m with
              scans := { scan with running := some e.token } :: scans
              log := .ran e.serial m.time :: m.log }) ∨
            (¬ IsDue e scan.now ∧
              m.visit = { m with scans := { scan with index := scan.index + 1 } :: scans }))) := by
  unfold UserCode at h
  unfold visit
  cases hscans : m.scans with
  | nil =>
    rw [hscans] at h
    exact absurd trivial h
  | cons scan scans =>
    rw [hscans] at h
    refine ⟨scan, scans, rfl, not_not.mp h, ?_⟩
    simp only
    cases he : m.table[scan.index]? with
    | none => exact .inl ⟨rfl, rfl⟩
    | some e =>
      refine .inr ⟨e, rfl, ?_⟩
      by_cases hdue : IsDue e scan.now
      · exact .inl ⟨hdue, by simp only [if_pos hdue]⟩
      · exact .inr ⟨hdue, by simp only [if_neg hdue]⟩

theorem finish_cases (hscans : m.scans ≠ []) (h : m.UserCode) (delay : BitVec 32) :
    ∃ scan scans token, m.scans = scan :: scans ∧ scan.running = some token ∧
      ((m.table[scan.index]? = none ∧ m.finish delay = m) ∨
        ∃ e, m.table[scan.index]? = some e ∧
          ((e.token ≠ token ∧ m.finish delay = { m with
              scans := { scan with index := scan.index + 1, running := none } :: scans }) ∨
            (e.token = token ∧ m.finish delay = { m with
              scans := { scan with index := scan.index + 1, running := none } :: scans
              table := m.table.set scan.index (afterCallback e delay)
              log := (if 0 < delay then .requeued e.serial delay else .ended e.serial) :: m.log }))) := by
  unfold UserCode at h
  unfold finish
  obtain ⟨scan, scans, hcons⟩ := List.exists_cons_of_ne_nil hscans
  rw [hcons] at h
  obtain ⟨token, hrunning⟩ := Option.ne_none_iff_exists'.mp h
  refine ⟨scan, scans, token, hcons, hrunning, ?_⟩
  simp only [hcons, hrunning]
  cases he : m.table[scan.index]? with
  | none => exact .inl ⟨rfl, rfl⟩
  | some e =>
    refine .inr ⟨e, rfl, ?_⟩
    by_cases htoken : e.token = token
    · exact .inr ⟨htoken, by simp only [ne_eq, htoken, not_true_eq_false, if_false]⟩
    · exact .inl ⟨htoken, by simp only [ne_eq, htoken, not_false_eq_true, if_true]⟩

end Machine

end Deferred
end VialQmk
