import Jos.Foundation.Ring
import Jos.Foundation.Run
import Mathlib.Algebra.GroupWithZero.Nat
import Mathlib.Logic.Function.Basic

/-! The mailboxes and semaphores of net/lwip/jos/arch/sys_arch.c, used by cooperative
threads that switch only inside `thread_wait`. -/

set_option autoImplicit false

namespace Jos

open Foundation Function

namespace Mailbox

def mboxSlots : Nat := 32
def sysArchTimeout : Nat := 2 ^ 32 - 1
def sysArchNowait : Nat := 2 ^ 32 - 2

/-- `struct sys_sem_entry`. The counter and the waiters together are the word that
`thread_wait` looks at. -/
structure Sem where
  counter : BitVec 16
  waiters : BitVec 16
  gen : Nat
deriving DecidableEq, Repr

inductive SemName where
  | queuedMsg
  | freeMsg
deriving DecidableEq, Repr

/-- A call on the mailbox: `sys_mbox_trypost`, or `sys_arch_mbox_fetch` with its timeout, 0
for none. `sys_arch_mbox_tryfetch` is a fetch with the timeout SYS_ARCH_NOWAIT. -/
inductive Call (Msg : Type) where
  | trypost (msg : Msg)
  | fetch (tmMsec : Nat)

namespace Call

variable {Msg : Type}

def sem : Call Msg → SemName
  | .trypost _ => .freeMsg
  | .fetch _ => .queuedMsg

def tmMsec : Call Msg → Nat
  | .trypost _ => 0
  | .fetch tmMsec => tmMsec

end Call

/-- The variables of `sys_arch_sem_wait` and `thread_wait` while a thread waits. -/
structure Wait (Msg : Type) where
  call : Call Msg
  waited : Nat
  gen : Nat
  a : Nat
  sleepUntil : Nat
  curV : BitVec 16 × BitVec 16
  s : Nat

inductive Point (Msg : Type) where
  /-- Not in one of the functions here. -/
  | user
  /-- At the head of the loop of `sys_arch_sem_wait`. -/
  | check (call : Call Msg) (waited gen : Nat)
  /-- It has read the time, and is about to wait. -/
  | timed (call : Call Msg) (waited gen a : Nat)
  /-- At the condition of the loop of `thread_wait`. -/
  | waiting (wait : Wait Msg) (p : Nat)
  /-- It has called `thread_yield` there. -/
  | yielded (wait : Wait Msg)

/-- A mailbox and the threads that use it, the one that runs, and the time since the boot
in units of 10 ms. `posted` and `fetched` are the messages in the order in which the calls
have posted and fetched them. -/
structure State (Tid Msg : Type) where
  head : Int
  nextq : Int
  msg : Int → Msg
  sems : SemName → Sem
  ticks : Nat
  current : Option Tid
  point : Tid → Point Msg
  tcWaitAddr : Tid → Option SemName
  tcWakeup : Tid → Bool
  panicked : Bool
  refused : Bool
  posted : List Msg
  fetched : List Msg

inductive Event (Tid Msg : Type) where
  /-- The timer interrupt. -/
  | tick
  /-- A thread is chosen to run. -/
  | switch (tid : Tid)
  /-- The current thread calls a function of the mailbox. -/
  | call (call : Call Msg)
  /-- The current thread waits for something else. -/
  | leave
  /-- The current thread goes on in its call. -/
  | go

namespace State

variable {Tid Msg : Type} [DecidableEq Tid]

/-- `sys_time_msec` -/
def now (s : State Tid Msg) : Nat := s.ticks * 10

def v (s : State Tid Msg) (sem : SemName) : BitVec 16 × BitVec 16 :=
  ((s.sems sem).counter, (s.sems sem).waiters)

/-- `thread_wakeup`, for the address of a semaphore. -/
def threadWakeup (s : State Tid Msg) (sem : SemName) : State Tid Msg :=
  { s with
    tcWakeup := fun tid => if s.tcWaitAddr tid = some sem then true else s.tcWakeup tid }

def sysSemSignal (s : State Tid Msg) (sem : SemName) : State Tid Msg :=
  let counter := (s.sems sem).counter + 1
  if (s.sems sem).waiters ≠ 0 then
    { s with sems := update s.sems sem { s.sems sem with counter, waiters := 0 } }.threadWakeup sem
  else { s with sems := update s.sems sem { s.sems sem with counter } }

/-- `sys_mbox_trypost` behind the wait; ERR_MEM is noted in `refused`. -/
def trypost (s : State Tid Msg) (message : Msg) : State Tid Msg :=
  if s.nextq = s.head then { s with refused := true }
  else
    let slot := s.nextq
    { s with
      nextq := (slot + 1) % mboxSlots
      msg := update s.msg slot message
      head := if s.head = -1 then slot else s.head
      posted := s.posted ++ [message] }.sysSemSignal .queuedMsg

/-- `sys_arch_mbox_fetch` behind the wait. -/
def fetch (s : State Tid Msg) : State Tid Msg :=
  if s.head = -1 then { s with panicked := true }
  else
    let slot := s.head
    let head := (slot + 1) % mboxSlots
    { s with
      head := if head = s.nextq then -1 else head
      fetched := s.fetched ++ [s.msg slot] }.sysSemSignal .freeMsg

/-- `sys_arch_sem_wait` has returned. A trypost does not look at what it returned. -/
def complete (s : State Tid Msg) (tid : Tid) (call : Call Msg) (waited : Nat) : State Tid Msg :=
  let s := { s with point := update s.point tid .user }
  match call with
  | .trypost message => s.trypost message
  | .fetch _ => if waited = sysArchTimeout then s else s.fetch

def take (s : State Tid Msg) (sem : SemName) : State Tid Msg :=
  { s with
    sems := update s.sems sem { s.sems sem with counter := (s.sems sem).counter - 1 } }

def goOn (s : State Tid Msg) (tid : Tid) : State Tid Msg :=
  match s.point tid with
  | .user => s
  | .check call waited gen =>
    if ¬ (call.tmMsec = 0 ∨ waited < call.tmMsec) then s.complete tid call sysArchTimeout
    else if (s.sems call.sem).counter > 0 then
      (s.take call.sem).complete tid call waited
    else if call.tmMsec = sysArchNowait then s.complete tid call sysArchTimeout
    else { s with point := update s.point tid (.timed call waited gen s.now) }
  | .timed call waited gen a =>
    let sleepUntil :=
      if call.tmMsec ≠ 0 then (a + (call.tmMsec - waited)) % 2 ^ 32 else 2 ^ 32 - 1
    let entry := { s.sems call.sem with waiters := 1 }
    let wait : Wait Msg := ⟨call, waited, gen, a, sleepUntil, (entry.counter, entry.waiters), s.now⟩
    { s with
      sems := update s.sems call.sem entry
      tcWaitAddr := update s.tcWaitAddr tid (some call.sem)
      tcWakeup := update s.tcWakeup tid false
      point := update s.point tid (.waiting wait s.now) }
  | .waiting wait p =>
    if p < wait.sleepUntil ∧ ¬ p < wait.s ∧ s.v wait.call.sem = wait.curV ∧ ¬ s.tcWakeup tid then
      { s with current := none, point := update s.point tid (.yielded wait) }
    else
      let s :=
        { s with
          tcWaitAddr := update s.tcWaitAddr tid none
          tcWakeup := update s.tcWakeup tid false }
      if wait.gen ≠ (s.sems wait.call.sem).gen then s.complete tid wait.call sysArchTimeout
      else
        let waited := (wait.waited + (s.now - wait.a)) % 2 ^ 32
        { s with point := update s.point tid (.check wait.call waited wait.gen) }
  | .yielded wait => { s with point := update s.point tid (.waiting wait s.now) }

/-- `none` says that the step is not taken here: nobody runs, or the kernel panics because
the time overflows. -/
def step (s : State Tid Msg) : Event Tid Msg → Option (State Tid Msg)
  | .tick => if (s.ticks + 1) * 10 < 2 ^ 32 then some { s with ticks := s.ticks + 1 } else none
  | .switch tid => if s.current.isNone then some { s with current := some tid } else none
  | .call call =>
    s.current.bind fun tid =>
      match s.point tid with
      | .user =>
        some { s with
          point := update s.point tid (.check call 0 (s.sems call.sem).gen) }
      | _ => none
  | .leave =>
    s.current.bind fun tid =>
      match s.point tid with
      | .user => some { s with current := none }
      | _ => none
  | .go =>
    s.current.bind fun tid =>
      match s.point tid with
      | .user => none
      | _ => some (s.goOn tid)

/-- A mailbox that `sys_mbox_new` has made, before any thread uses it. -/
structure Created (s : State Tid Msg) : Prop where
  head : s.head = -1
  nextq : s.nextq = 0
  queued : (s.sems .queuedMsg).counter = 0
  free : (s.sems .freeMsg).counter = mboxSlots
  time : s.now < 2 ^ 32
  point : ∀ tid, s.point tid = .user
  waiting : ∀ tid, s.tcWaitAddr tid = none
  panicked : s.panicked = false
  refused : s.refused = false
  posted : s.posted = []
  fetched : s.fetched = []

/-- The messages that have been posted and not fetched lie in the slots from the head on. -/
structure Mail (s : State Tid Msg) : Prop where
  order : s.fetched <+: s.posted
  room : s.posted.length ≤ s.fetched.length + mboxSlots
  nextq : s.nextq = (s.posted.length % mboxSlots : Nat)
  head : s.head = if s.posted.length = s.fetched.length then -1
    else ((s.fetched.length % mboxSlots : Nat) : Int)
  msgs : ∀ i message, s.fetched.length ≤ i → s.posted[i]? = some message →
    s.msg ((i % mboxSlots : Nat) : Int) = message
  panicked : s.panicked = false
  refused : s.refused = false

def units (s : State Tid Msg) (sem : SemName) : Nat := (s.sems sem).counter.toNat

structure SameThreads (s s' : State Tid Msg) : Prop where
  gen : ∀ sem, (s'.sems sem).gen = (s.sems sem).gen
  ticks : s'.ticks = s.ticks
  current : s'.current = s.current
  point : s'.point = s.point
  waitAddr : s'.tcWaitAddr = s.tcWaitAddr

variable {s s' : State Tid Msg} {tid other : Tid} {sem sem' : SemName} {message : Msg}
  {call : Call Msg} {waited gen a p : Nat} {wait : Wait Msg} {event : Event Tid Msg}

omit [DecidableEq Tid] in
/-- What `sys_sem_signal` does to the mailbox and the threads. -/
theorem signal_eq : ∃ entry wakeup, entry.counter = (s.sems sem).counter + 1 ∧
    entry.gen = (s.sems sem).gen ∧
    s.sysSemSignal sem = { s with sems := update s.sems sem entry, tcWakeup := wakeup } := by
  by_cases waiters : (s.sems sem).waiters ≠ 0
  · exact ⟨{ s.sems sem with counter := (s.sems sem).counter + 1, waiters := 0 }, _, rfl, rfl,
      if_pos waiters⟩
  · exact ⟨{ s.sems sem with counter := (s.sems sem).counter + 1 }, s.tcWakeup, rfl, rfl,
      if_neg waiters⟩

omit [DecidableEq Tid] in
theorem signal_mail (mail : s.Mail) : (s.sysSemSignal sem).Mail := by
  obtain ⟨entry, wakeup, -, -, same⟩ := @signal_eq _ _ s sem
  rw [same]
  exact { mail with }

omit [DecidableEq Tid] in
theorem signal_threads : s.SameThreads (s.sysSemSignal sem) := by
  obtain ⟨entry, wakeup, -, gen, same⟩ := @signal_eq _ _ s sem
  rw [same]
  refine ⟨fun sem' => ?_, rfl, rfl, rfl, rfl⟩
  by_cases here : sem' = sem
  · subst here
    simp only [update_self, gen]
  · simp only [update_of_ne here]

omit [DecidableEq Tid] in
theorem signal_posted : (s.sysSemSignal sem).posted = s.posted := by
  obtain ⟨entry, wakeup, -, -, same⟩ := @signal_eq _ _ s sem
  rw [same]

omit [DecidableEq Tid] in
theorem signal_fetched : (s.sysSemSignal sem).fetched = s.fetched := by
  obtain ⟨entry, wakeup, -, -, same⟩ := @signal_eq _ _ s sem
  rw [same]

omit [DecidableEq Tid] in
theorem signal_units (few : s.units sem + 1 < 2 ^ 16) :
    (s.sysSemSignal sem).units sem' = s.units sem' + if sem' = sem then 1 else 0 := by
  obtain ⟨entry, wakeup, counter, -, same⟩ := @signal_eq _ _ s sem
  have more : entry.counter.toNat = (s.sems sem).counter.toNat + 1 := by
    rw [counter, BitVec.toNat_add]
    exact Nat.mod_eq_of_lt few
  rw [same]
  unfold units
  by_cases here : sem' = sem
  · subst here
    simp only [update_self, more, if_pos]
  · simp only [update_of_ne here, if_neg here, Nat.add_zero]

omit [DecidableEq Tid] in
theorem Mail.trypost (mail : s.Mail) (message : Msg) (room : s.posted.length < s.fetched.length + mboxSlots)
    (few : s.units .queuedMsg + 1 < 2 ^ 16) :
    (s.trypost message).Mail ∧ (s.trypost message).posted = s.posted ++ [message] ∧
      (s.trypost message).fetched = s.fetched ∧ s.SameThreads (s.trypost message) ∧
      ∀ sem, (s.trypost message).units sem =
        s.units sem + if sem = .queuedMsg then 1 else 0 := by
  have size : mboxSlots = 32 := rfl
  have fewer := mail.order.length_le
  have nextq := mail.nextq
  have head := mail.head
  have differs : ¬ s.nextq = s.head := by
    rw [size] at room nextq head
    split at head <;> omega
  set stored : State Tid Msg :=
    { s with
      nextq := (s.nextq + 1) % mboxSlots
      msg := update s.msg s.nextq message
      head := if s.head = -1 then s.nextq else s.head
      posted := s.posted ++ [message] } with posting
  have ran : s.trypost message = stored.sysSemSignal .queuedMsg := if_neg differs
  have length : (s.posted ++ [message]).length = s.posted.length + 1 := by
    rw [List.length_append, List.length_singleton]
  have kept : stored.Mail :=
    { order := mail.order.trans (List.prefix_append _ _)
      room := by
        change (s.posted ++ [message]).length ≤ _
        rw [length]
        exact room
      nextq := by
        change (s.nextq + 1) % (mboxSlots : Int) = (((s.posted ++ [message]).length % mboxSlots : Nat) : Int)
        rw [length, nextq, size]
        omega
      head := by
        change (if s.head = -1 then s.nextq else s.head) =
          if (s.posted ++ [message]).length = s.fetched.length then -1
          else ((s.fetched.length % mboxSlots : Nat) : Int)
        have longer : ¬ s.posted.length + 1 = s.fetched.length := by omega
        rw [length, if_neg longer]
        rw [size] at room nextq head ⊢
        split at head <;> split <;> omega
      msgs := by
        intro i other waits there
        have waits : s.fetched.length ≤ i := waits
        change update s.msg s.nextq message _ = other
        rcases Nat.lt_trichotomy i s.posted.length with below | last | beyond
        · change (s.posted ++ [message])[i]? = some other at there
          rw [List.getElem?_append_left below] at there
          have apart : ((i % mboxSlots : Nat) : Int) ≠ s.nextq := by
            intro same
            rw [nextq, Int.natCast_inj] at same
            have equal := ring_injective same waits (by omega) fewer room
            omega
          rw [update_of_ne apart]
          exact mail.msgs i other waits there
        · subst last
          obtain rfl : message = other := by simpa [posting] using there
          rw [← nextq, update_self]
        · have none : (s.posted ++ [message])[i]? = none :=
            List.getElem?_eq_none (by rw [length]; omega)
          exact absurd (none.symm.trans there) nofun
      panicked := mail.panicked
      refused := mail.refused }
  rw [ran]
  refine ⟨signal_mail kept, signal_posted, signal_fetched, ?_, fun sem => signal_units few⟩
  have same : stored.SameThreads (stored.sysSemSignal .queuedMsg) := signal_threads
  exact ⟨same.gen, same.ticks, same.current, same.point, same.waitAddr⟩

omit [DecidableEq Tid] in
theorem Mail.fetch (mail : s.Mail) (nonempty : s.fetched.length < s.posted.length)
    (few : s.units .freeMsg + 1 < 2 ^ 16) :
    s.fetch.Mail ∧ s.fetch.posted = s.posted ∧ s.fetch.fetched.length = s.fetched.length + 1 ∧
      s.SameThreads s.fetch ∧
      ∀ sem, s.fetch.units sem = s.units sem + if sem = .freeMsg then 1 else 0 := by
  have size : mboxSlots = 32 := rfl
  have room := mail.room
  have nextq := mail.nextq
  have head := mail.head
  rw [if_neg (by omega)] at head
  have differs : ¬ s.head = -1 := by omega
  have there := List.getElem?_eq_getElem nonempty
  have first : s.msg s.head = s.posted[s.fetched.length] := by
    rw [head]
    exact mail.msgs _ _ (Nat.le_refl _) there
  set taken : State Tid Msg :=
    { s with
      head := if (s.head + 1) % mboxSlots = s.nextq then -1 else (s.head + 1) % mboxSlots
      fetched := s.fetched ++ [s.msg s.head] } with taking
  have ran : s.fetch = taken.sysSemSignal .freeMsg := if_neg differs
  have length : (s.fetched ++ [s.msg s.head]).length = s.fetched.length + 1 := by
    rw [List.length_append, List.length_singleton]
  have kept : taken.Mail :=
    { order := by
        change s.fetched ++ [s.msg s.head] <+: s.posted
        rw [first]
        exact prefix_snoc mail.order there
      room := by
        change s.posted.length ≤ (s.fetched ++ [s.msg s.head]).length + mboxSlots
        rw [length]
        omega
      nextq := nextq
      head := by
        change (if (s.head + 1) % (mboxSlots : Int) = s.nextq then -1
          else (s.head + 1) % (mboxSlots : Int)) =
          if s.posted.length = (s.fetched ++ [s.msg s.head]).length then -1
          else (((s.fetched ++ [s.msg s.head]).length % mboxSlots : Nat) : Int)
        rw [length]
        rw [size] at room nextq head ⊢
        split <;> split <;> omega
      msgs := by
        intro i other waits found
        refine mail.msgs i other (Nat.le_trans ?_ waits) found
        change _ ≤ (s.fetched ++ [s.msg s.head]).length
        omega
      panicked := mail.panicked
      refused := mail.refused }
  rw [ran]
  refine ⟨signal_mail kept, signal_posted, ?_, ?_, fun sem => signal_units few⟩
  · rw [signal_fetched]
    exact length
  · have same : taken.SameThreads (taken.sysSemSignal .freeMsg) := signal_threads
    exact ⟨same.gen, same.ticks, same.current, same.point, same.waitAddr⟩

/-- What a thread in `thread_wait` has noted. -/
structure Waits (s : State Tid Msg) (tid : Tid) (wait : Wait Msg) : Prop where
  gen : wait.gen = (s.sems wait.call.sem).gen
  waited : wait.waited ≤ wait.a
  a : wait.a ≤ s.now
  whole : wait.waited % 10 = 0 ∧ wait.a % 10 = 0
  empty : wait.curV.1 = 0
  addr : s.tcWaitAddr tid = some wait.call.sem

/-- What holds where a thread stands. Only the current one is outside `thread_yield`. -/
def Stands (s : State Tid Msg) (tid : Tid) : Point Msg → Prop
  | .user => True
  | .check call waited gen => s.current = some tid ∧ gen = (s.sems call.sem).gen ∧
      waited ≤ s.now ∧ waited % 10 = 0
  | .timed call waited gen a => s.current = some tid ∧ gen = (s.sems call.sem).gen ∧
      waited ≤ a ∧ a ≤ s.now ∧ waited % 10 = 0 ∧ a % 10 = 0 ∧ s.units call.sem = 0
  | .waiting wait _ => s.current = some tid ∧ s.Waits tid wait
  | .yielded wait => s.Waits tid wait

structure Kept (s : State Tid Msg) : Prop where
  mail : s.Mail
  queued : s.units .queuedMsg + s.fetched.length = s.posted.length
  free : s.units .freeMsg + s.posted.length = s.fetched.length + mboxSlots
  time : s.now < 2 ^ 32
  stands : ∀ tid, s.Stands tid (s.point tid)

omit [DecidableEq Tid] in
theorem Created.kept (created : s.Created) : s.Kept where
  mail :=
    { order := by rw [created.fetched]; exact List.nil_prefix
      room := by rw [created.posted]; exact Nat.zero_le _
      nextq := by rw [created.nextq, created.posted]; rfl
      head := by rw [created.head, created.posted, created.fetched]; rfl
      msgs := fun i message _ there => by rw [created.posted] at there; cases there
      panicked := created.panicked
      refused := created.refused }
  queued := by rw [units, created.queued, created.posted, created.fetched]; rfl
  free := by rw [units, created.free, created.posted, created.fetched]; rfl
  time := created.time
  stands tid := by rw [created.point]; trivial

omit [DecidableEq Tid] in
theorem Stands.away {point : Point Msg} (stands : s.Stands other point)
    (current : s.current ≠ some other) (gen : ∀ sem, (s'.sems sem).gen = (s.sems sem).gen)
    (time : s.now ≤ s'.now) (addr : s'.tcWaitAddr other = s.tcWaitAddr other) :
    s'.Stands other point := by
  cases point with
  | user => trivial
  | check call waited gen => exact absurd stands.1 current
  | timed call waited gen a => exact absurd stands.1 current
  | waiting wait p => exact absurd stands.1 current
  | yielded wait =>
    have waits : s.Waits other wait := stands
    exact
      { gen := by rw [gen]; exact waits.gen
        waited := waits.waited
        a := Nat.le_trans waits.a time
        whole := waits.whole
        empty := waits.empty
        addr := by rw [addr]; exact waits.addr }

theorem Kept.moves (kept : s.Kept) (current : s.current = some tid) {place : Point Msg}
    (mail : s'.Mail) (queued : s'.units .queuedMsg + s'.fetched.length = s'.posted.length)
    (free : s'.units .freeMsg + s'.posted.length = s'.fetched.length + mboxSlots)
    (ticks : s'.ticks = s.ticks) (gen : ∀ sem, (s'.sems sem).gen = (s.sems sem).gen)
    (addr : ∀ other, other ≠ tid → s'.tcWaitAddr other = s.tcWaitAddr other)
    (point : s'.point = update s.point tid place) (stands : s'.Stands tid place) : s'.Kept where
  mail := mail
  queued := queued
  free := free
  time := by
    have time := kept.time
    rwa [now, ticks]
  stands other := by
    rw [point]
    by_cases same : other = tid
    · subst same
      rw [update_self]
      exact stands
    · rw [update_of_ne same]
      refine (kept.stands other).away ?_ gen
        (Nat.le_of_eq (by rw [now, now, ticks])) (addr other same)
      rw [current]
      exact fun equal => same (Option.some.inj equal).symm

omit [DecidableEq Tid] in
theorem take_sems : (s.take sem).sems =
    update s.sems sem { s.sems sem with counter := (s.sems sem).counter - 1 } := rfl

omit [DecidableEq Tid] in
theorem take_units (positive : (s.sems sem).counter > 0) :
    (s.take sem).units sem + 1 = s.units sem ∧
      ∀ sem', sem' ≠ sem → (s.take sem).units sem' = s.units sem' := by
  have bound := (s.sems sem).counter.isLt
  have positive : 0 < (s.sems sem).counter.toNat := positive
  refine ⟨?_, fun sem' differs => ?_⟩
  · unfold units
    rw [take_sems, update_self, BitVec.toNat_sub]
    change (2 ^ 16 - 1 + (s.sems sem).counter.toNat) % 2 ^ 16 + 1 = _
    omega
  · unfold units
    rw [take_sems, update_of_ne differs]

omit [DecidableEq Tid] in
theorem take_gen : ((s.take sem).sems sem').gen = (s.sems sem').gen := by
  rw [take_sems]
  by_cases same : sem' = sem
  · subst same
    rw [update_self]
  · rw [update_of_ne same]

theorem Kept.completes (kept : s.Kept) (current : s.current = some tid)
    (positive : (s.sems call.sem).counter > 0) (whole : waited ≠ sysArchTimeout) :
    ((s.take call.sem).complete tid call waited).Kept ∧
      ((s.take call.sem).complete tid call waited).point tid = .user ∧
      ((s.take call.sem).complete tid call waited).units call.sem + 1 = s.units call.sem := by
  obtain ⟨taken, others⟩ := take_units positive
  have queued := kept.queued
  have free := kept.free
  have size : mboxSlots = 32 := rfl
  set left : State Tid Msg := { s.take call.sem with point := update s.point tid .user } with leaving
  have mail : left.Mail := { kept.mail with }
  cases call with
  | trypost message =>
    have rest : (s.take .freeMsg).units .queuedMsg = s.units .queuedMsg :=
      others .queuedMsg nofun
    have taken : (s.take .freeMsg).units .freeMsg + 1 = s.units .freeMsg := taken
    have left_units (sem : SemName) : left.units sem = (s.take .freeMsg).units sem := rfl
    obtain ⟨mail', posted, fetched, same, units⟩ := mail.trypost message
      (by change s.posted.length < s.fetched.length + mboxSlots; omega)
      (by rw [left_units, rest]; omega)
    change (left.trypost message).Kept ∧ (left.trypost message).point tid = .user ∧
      (left.trypost message).units .freeMsg + 1 = s.units .freeMsg
    refine ⟨kept.moves current mail' ?_ ?_ same.ticks
      (fun sem => (same.gen sem).trans take_gen) (fun other _ => congrFun same.waitAddr other)
      same.point trivial, (congrFun same.point tid).trans (update_self ..), by
        rw [units, left_units, if_neg (by decide), Nat.add_zero, taken]⟩
    · rw [units, posted, fetched, left_units, rest, if_pos rfl, List.length_append,
        List.length_singleton]
      change s.units .queuedMsg + 1 + s.fetched.length = s.posted.length + 1
      omega
    · rw [units, posted, fetched, left_units, if_neg (by decide), List.length_append,
        List.length_singleton]
      change (s.take .freeMsg).units .freeMsg + 0 + (s.posted.length + 1) =
        s.fetched.length + mboxSlots
      omega
  | fetch tm =>
    have rest : (s.take .queuedMsg).units .freeMsg = s.units .freeMsg := others .freeMsg nofun
    have left_units (sem : SemName) : left.units sem = (s.take .queuedMsg).units sem := rfl
    have taken : (s.take .queuedMsg).units .queuedMsg + 1 = s.units .queuedMsg := taken
    obtain ⟨mail', posted, fetched, same, units⟩ := mail.fetch
      (by change s.fetched.length < s.posted.length; omega)
      (by rw [left_units, rest]; omega)
    have ran : (s.take .queuedMsg).complete tid (.fetch tm) waited = left.fetch := if_neg whole
    change ((s.take .queuedMsg).complete tid (.fetch tm) waited).Kept ∧
      ((s.take .queuedMsg).complete tid (.fetch tm) waited).point tid = .user ∧
      ((s.take .queuedMsg).complete tid (.fetch tm) waited).units .queuedMsg + 1 =
        s.units .queuedMsg
    rw [ran]
    refine ⟨kept.moves current mail' ?_ ?_ same.ticks
      (fun sem => (same.gen sem).trans take_gen) (fun other _ => congrFun same.waitAddr other)
      same.point trivial, (congrFun same.point tid).trans (update_self ..), by
        rw [units, left_units, if_neg (by decide), Nat.add_zero, taken]⟩
    · rw [units, posted, fetched, left_units, if_neg (by decide)]
      change (s.take .queuedMsg).units .queuedMsg + 0 + (s.fetched.length + 1) = s.posted.length
      omega
    · rw [units, posted, fetched, left_units, rest, if_pos rfl]
      change s.units .freeMsg + 1 + s.posted.length = s.fetched.length + 1 + mboxSlots
      omega

theorem Kept.ends (kept : s.Kept) (current : s.current = some tid) {tm : Nat} :
    (s.complete tid (.fetch tm) sysArchTimeout).Kept :=
  kept.moves current { kept.mail with } kept.queued kept.free rfl (fun _ => rfl)
    (fun _ _ => rfl) rfl trivial

theorem Kept.goesOn (kept : s.Kept) (current : s.current = some tid) : (s.goOn tid).Kept := by
  have stands := kept.stands tid
  have time := kept.time
  unfold goOn
  cases place : s.point tid with
  | user => exact kept
  | check call waited gen =>
    rw [place] at stands
    obtain ⟨-, gen, before, whole⟩ := stands
    have ends (limited : call.tmMsec ≠ 0) : (s.complete tid call sysArchTimeout).Kept := by
      cases call with
      | trypost message => exact absurd rfl limited
      | fetch tm => exact kept.ends current
    simp only
    split
    · rename_i past
      exact ends fun zero => past (.inl zero)
    split
    · rename_i positive
      refine (kept.completes current positive ?_).1
      rintro rfl
      cases whole
    split
    · rename_i nowait
      refine ends ?_
      rw [nowait]
      decide
    · rename_i zero _
      refine kept.moves current { kept.mail with } kept.queued kept.free rfl (fun _ => rfl)
        (fun _ _ => rfl) rfl ⟨current, gen, before, Nat.le_refl _, whole, Nat.mul_mod_left .., ?_⟩
      exact Nat.eq_zero_of_not_pos zero
  | timed call waited gen a =>
    rw [place] at stands
    obtain ⟨-, gen, before, past, whole, whole', empty⟩ := stands
    have counter : (s.sems call.sem).counter = 0 := BitVec.eq_of_toNat_eq empty
    have same (sem : SemName) : (update s.sems call.sem { s.sems call.sem with waiters := 1 } sem).gen =
        (s.sems sem).gen ∧
        (update s.sems call.sem { s.sems call.sem with waiters := 1 } sem).counter =
          (s.sems sem).counter := by
      by_cases here : sem = call.sem
      · rw [here, update_self]
        exact ⟨rfl, rfl⟩
      · rw [update_of_ne here]
        exact ⟨rfl, rfl⟩
    refine kept.moves current { kept.mail with } ?_ ?_ rfl (fun sem => (same sem).1)
      (fun other differs => update_of_ne differs ..) rfl ⟨current, ?_⟩
    · change (update s.sems call.sem _ _).counter.toNat + _ = _
      rw [(same _).2]
      exact kept.queued
    · change (update s.sems call.sem _ _).counter.toNat + _ = _
      rw [(same _).2]
      exact kept.free
    · exact
        { gen := gen.trans (same _).1.symm
          waited := before
          a := past
          whole := ⟨whole, whole'⟩
          empty := counter
          addr := update_self .. }
  | waiting wait p =>
    rw [place] at stands
    obtain ⟨-, waits⟩ := stands
    simp only
    split
    · refine kept.moves current { kept.mail with } kept.queued kept.free rfl (fun _ => rfl)
        (fun _ _ => rfl) rfl ?_
      exact { waits with }
    rw [if_neg (not_not.mpr waits.gen)]
    have bound : wait.waited + (s.now - wait.a) < 2 ^ 32 := by
      have := waits.waited
      have := waits.a
      omega
    refine kept.moves current { kept.mail with } kept.queued kept.free rfl (fun _ => rfl)
      (fun other differs => update_of_ne differs ..) rfl ⟨current, waits.gen, ?_, ?_⟩
    · have := waits.waited
      have := waits.a
      change (wait.waited + (s.now - wait.a)) % 2 ^ 32 ≤ s.now
      rw [Nat.mod_eq_of_lt bound]
      omega
    · change (wait.waited + (s.now - wait.a)) % 2 ^ 32 % 10 = 0
      rw [Nat.mod_eq_of_lt bound]
      have whole := waits.whole
      have now : s.now % 10 = 0 := Nat.mul_mod_left ..
      have := waits.a
      omega
  | yielded wait =>
    rw [place] at stands
    exact kept.moves current { kept.mail with } kept.queued kept.free rfl (fun _ => rfl)
      (fun _ _ => rfl) rfl ⟨current, { stands with }⟩

omit [DecidableEq Tid] in
theorem Stands.later {point : Point Msg} (stands : s.Stands tid point) :
    Stands { s with ticks := s.ticks + 1 } tid point := by
  have time : s.now ≤ (s.ticks + 1) * 10 := Nat.mul_le_mul_right 10 (Nat.le_succ _)
  have waits {wait : Wait Msg} (known : s.Waits tid wait) :
      Waits { s with ticks := s.ticks + 1 } tid wait :=
    { known with a := Nat.le_trans known.a time }
  cases point with
  | user => trivial
  | check call waited gen =>
    obtain ⟨current, gen, before, whole⟩ := stands
    exact ⟨current, gen, Nat.le_trans before time, whole⟩
  | timed call waited gen a =>
    obtain ⟨current, gen, before, past, rest⟩ := stands
    exact ⟨current, gen, before, Nat.le_trans past time, rest⟩
  | waiting wait p => exact ⟨stands.1, waits stands.2⟩
  | yielded wait => exact waits stands

theorem Kept.step (kept : s.Kept) (stepped : s.step event = some s') : s'.Kept := by
  cases event with
  | tick =>
    simp only [State.step] at stepped
    split at stepped
    · rename_i bound
      cases stepped
      exact
        { mail := { kept.mail with }
          queued := kept.queued
          free := kept.free
          time := bound
          stands := fun tid => (kept.stands tid).later }
    · cases stepped
  | switch tid =>
    simp only [State.step] at stepped
    split at stepped
    · rename_i idle
      cases stepped
      have idle : s.current = none := Option.isNone_iff_eq_none.mp idle
      exact
        { mail := { kept.mail with }
          queued := kept.queued
          free := kept.free
          time := kept.time
          stands := fun other => (kept.stands other).away (by rw [idle]; exact nofun)
            (fun _ => rfl) (Nat.le_refl _) rfl }
    · cases stepped
  | call call =>
    obtain ⟨tid, current, stepped⟩ := Option.bind_eq_some_iff.mp stepped
    split at stepped
    · obtain rfl := Option.some.inj stepped
      exact kept.moves current { kept.mail with } kept.queued kept.free rfl (fun _ => rfl)
        (fun _ _ => rfl) rfl ⟨current, rfl, Nat.zero_le _, rfl⟩
    · cases stepped
  | leave =>
    obtain ⟨tid, current, stepped⟩ := Option.bind_eq_some_iff.mp stepped
    split at stepped
    · rename_i place
      cases stepped
      refine
        { mail := { kept.mail with }
          queued := kept.queued
          free := kept.free
          time := kept.time
          stands := fun other => ?_ }
      by_cases same : other = tid
      · subst same
        change Stands _ other (s.point other)
        rw [place]
        trivial
      · refine (kept.stands other).away ?_ (fun _ => rfl) (Nat.le_refl _) rfl
        rw [current]
        exact fun equal => same (Option.some.inj equal).symm
    · cases stepped
  | go =>
    obtain ⟨tid, current, stepped⟩ := Option.bind_eq_some_iff.mp stepped
    split at stepped
    · cases stepped
    · obtain rfl := Option.some.inj stepped
      exact kept.goesOn current

/-- The current thread goes on three times, with timer interrupts before each. -/
def goes (first second third : Nat) : List (Event Tid Msg) :=
  List.replicate first .tick ++ .go :: (List.replicate second .tick ++
    .go :: (List.replicate third .tick ++ [.go]))

/-- A thread in `thread_wait` leaves its loop when it looks at its condition the next time:
the semaphore has another value, or the thread has been woken up. -/
def Runnable (s : State Tid Msg) (tid : Tid) (wait : Wait Msg) : Prop :=
  s.v wait.call.sem ≠ wait.curV ∨ s.tcWakeup tid = true

/-- Messages are fetched in the order in which they have been posted, no more of them are
pending than there are slots, no call has failed, and no wake-up is lost: a thread that
waits for a semaphore with units can go on, and when it does, it takes one. -/
structure Bounded (s : State Tid Msg) : Prop where
  order : s.fetched <+: s.posted
  pending : s.posted.length ≤ s.fetched.length + mboxSlots
  refused : s.refused = false
  panicked : s.panicked = false
  awake : ∀ tid wait, (s.point tid = .yielded wait ∨ ∃ p, s.point tid = .waiting wait p) →
    0 < s.units wait.call.sem → s.Runnable tid wait
  takes : ∀ tid wait first second third s', s.current = some tid →
    s.point tid = .yielded wait → wait.call.tmMsec = 0 → 0 < s.units wait.call.sem →
    run step s (goes first second third) = some s' →
    s'.point tid = .user ∧ s'.units wait.call.sem + 1 = s.units wait.call.sem

theorem Kept.run_ticks {n : Nat} {rest : List (Event Tid Msg)} (kept : s.Kept)
    (ran : run State.step s (List.replicate n .tick ++ rest) = some s') :
    ∃ ticks, run State.step { s with ticks } rest = some s' ∧ Kept { s with ticks } := by
  induction n generalizing s with
  | zero => exact ⟨s.ticks, ran, kept⟩
  | succ n ih =>
    obtain ⟨s₁, stepped, ran⟩ := Option.bind_eq_some_iff.mp ran
    have kept₁ := kept.step stepped
    simp only [State.step] at stepped
    split at stepped
    · obtain rfl := Option.some.inj stepped
      obtain ⟨ticks, ran, kept₂⟩ := ih kept₁ ran
      exact ⟨ticks, ran, kept₂⟩
    · cases stepped

omit [DecidableEq Tid] in
theorem Kept.runnable (kept : s.Kept)
    (place : s.point tid = .yielded wait ∨ ∃ p, s.point tid = .waiting wait p)
    (positive : 0 < s.units wait.call.sem) : s.Runnable tid wait := by
  have waits : s.Waits tid wait := by
    have stands := kept.stands tid
    rcases place with yielded | ⟨p, waiting⟩
    · rwa [yielded] at stands
    · rw [waiting] at stands
      exact stands.2
  refine .inl fun same => ?_
  have counter : (s.sems wait.call.sem).counter = 0 := (congrArg Prod.fst same).trans waits.empty
  rw [units, counter] at positive
  exact absurd positive (by decide)

theorem go_eq (current : s.current = some tid) (place : s.point tid ≠ .user)
    {rest : List (Event Tid Msg)} : run step s (.go :: rest) = run step (s.goOn tid) rest := by
  have stepped : s.step .go = some (s.goOn tid) := by
    simp only [State.step, current, Option.bind_some]
  rw [Foundation.run, stepped, Option.bind_some]

/-- A thread that finds units leaves the loop of `thread_wait`. -/
theorem Kept.goOn_waiting (kept : s.Kept) (place : s.point tid = .waiting wait p)
    (positive : 0 < s.units wait.call.sem) :
    ∃ waited, (s.goOn tid).point tid = .check wait.call waited wait.gen ∧
      (s.goOn tid).current = s.current ∧ (s.goOn tid).sems = s.sems := by
  have runnable := kept.runnable (.inr ⟨p, place⟩) positive
  have waits : s.Waits tid wait := by
    have stands := kept.stands tid
    rw [place] at stands
    exact stands.2
  have past : ¬ (p < wait.sleepUntil ∧ ¬ p < wait.s ∧ s.v wait.call.sem = wait.curV ∧
      ¬ s.tcWakeup tid) := by
    rintro ⟨-, -, same, asleep⟩
    exact runnable.elim (fun differs => differs same) asleep
  unfold goOn
  rw [place]
  simp only
  rw [if_neg past, if_neg (not_not.mpr waits.gen)]
  exact ⟨_, update_self .., rfl, rfl⟩

/-- A thread without a timeout that finds units takes one, and its call completes. -/
theorem Kept.goOn_check (kept : s.Kept) (current : s.current = some tid)
    (place : s.point tid = .check call waited gen) (unlimited : call.tmMsec = 0)
    (positive : 0 < s.units call.sem) :
    (s.goOn tid).point tid = .user ∧ (s.goOn tid).units call.sem + 1 = s.units call.sem := by
  have stands := kept.stands tid
  rw [place] at stands
  obtain ⟨-, -, -, whole⟩ := stands
  have early : waited ≠ sysArchTimeout := by
    rintro rfl
    cases whole
  have unit : (s.sems call.sem).counter > 0 := positive
  unfold goOn
  rw [place]
  simp only
  rw [if_neg (not_not.mpr (.inl unlimited)), if_pos unit]
  exact (kept.completes current unit early).2

theorem Kept.takes (kept : s.Kept) {first second third : Nat} (current : s.current = some tid)
    (place : s.point tid = .yielded wait) (unlimited : wait.call.tmMsec = 0)
    (positive : 0 < s.units wait.call.sem) (ran : run State.step s (goes first second third) = some s') :
    s'.point tid = .user ∧ s'.units wait.call.sem + 1 = s.units wait.call.sem := by
  unfold goes at ran
  obtain ⟨ticks₁, ran, kept₁⟩ := kept.run_ticks ran
  set s₁ : State Tid Msg := { s with ticks := ticks₁ }
  have current₁ : s₁.current = some tid := current
  have place₁ : s₁.point tid = .yielded wait := place
  rw [go_eq current₁ (by rw [place₁]; exact nofun)] at ran
  obtain ⟨ticks₂, ran, kept₂⟩ := (kept₁.goesOn current₁).run_ticks ran
  set s₂ : State Tid Msg := { s₁.goOn tid with ticks := ticks₂ }
  have gone : s₁.goOn tid = { s₁ with point := update s₁.point tid (.waiting wait s₁.now) } := by
    unfold goOn
    rw [place₁]
  have current₂ : s₂.current = some tid := by
    change (s₁.goOn tid).current = _
    rw [gone]
    exact current
  have place₂ : s₂.point tid = .waiting wait s₁.now := by
    change (s₁.goOn tid).point tid = _
    rw [gone]
    exact update_self ..
  have units₂ : s₂.units wait.call.sem = s.units wait.call.sem := by
    change ((s₁.goOn tid).sems wait.call.sem).counter.toNat = _
    rw [gone]
    rfl
  rw [go_eq current₂ (by rw [place₂]; exact nofun)] at ran
  obtain ⟨ticks₃, ran, kept₃⟩ := (kept₂.goesOn current₂).run_ticks ran
  set s₃ : State Tid Msg := { s₂.goOn tid with ticks := ticks₃ }
  obtain ⟨waited, place₃, same, sems⟩ := kept₂.goOn_waiting place₂ (units₂ ▸ positive)
  have units₃ : s₃.units wait.call.sem = s.units wait.call.sem := by
    change ((s₂.goOn tid).sems wait.call.sem).counter.toNat = _
    rw [sems]
    exact units₂
  have current₃ : s₃.current = some tid := same.trans current₂
  have place₃ : s₃.point tid = .check wait.call waited wait.gen := place₃
  rw [go_eq current₃ (by rw [place₃]; exact nofun)] at ran
  cases ran
  obtain ⟨user, taken⟩ := kept₃.goOn_check current₃ place₃ unlimited (units₃ ▸ positive)
  exact ⟨user, taken.trans units₃⟩

theorem Kept.bounded (kept : s.Kept) : s.Bounded where
  order := kept.mail.order
  pending := kept.mail.room
  refused := kept.mail.refused
  panicked := kept.mail.panicked
  awake _ _ place positive := kept.runnable place positive
  takes _ _ _ _ _ _ current place unlimited positive ran :=
    kept.takes current place unlimited positive ran

end State

variable {Tid Msg : Type} [DecidableEq Tid]

/-- In every run of threads on a mailbox, it is a bounded queue that loses no wake-up. -/
theorem mailbox_bounded {s : State Tid Msg}
    (reached : Reachable State.Created State.step (fun _ _ => True) s) : s.Bounded :=
  (reached.invariant State.Kept (fun _ created => created.kept)
    fun _ _ _ kept _ stepped => kept.step stepped).bounded

def sampleMailbox : State Bool Nat where
  head := -1
  nextq := 0
  msg _ := 0
  sems
    | .queuedMsg => ⟨0, 0, 1⟩
    | .freeMsg => ⟨32, 0, 1⟩
  ticks := 7
  current := none
  point _ := .user
  tcWaitAddr _ := none
  tcWakeup _ := false
  panicked := false
  refused := false
  posted := []
  fetched := []

theorem sampleMailbox_created : sampleMailbox.Created where
  head := rfl
  nextq := rfl
  queued := rfl
  free := rfl
  time := by decide
  point _ := rfl
  waiting _ := rfl
  panicked := rfl
  refused := rfl
  posted := rfl
  fetched := rfl

/-- A thread waits for a message, which the other one posts. -/
theorem sample_mailbox_bounded :
    ∃ s : State Bool Nat, s.Bounded ∧ s.posted = [42, 43] ∧ s.fetched = [42] := by
  have ends : ((run State.step sampleMailbox
      [.switch true, .call (.fetch 0), .go, .go, .go, .tick, .switch false, .call (.trypost 42), .go,
        .call (.trypost 43), .go, .leave, .switch true, .go, .go, .tick, .go]).map
      fun s => (s.posted, s.fetched)) = some ([42, 43], [42]) := by decide
  obtain ⟨s, ran, same⟩ := Option.map_eq_some_iff.mp ends
  obtain ⟨posted, fetched⟩ := Prod.mk.inj same
  exact ⟨s, mailbox_bounded ⟨_, _, sampleMailbox_created, .of_run ran⟩, posted, fetched⟩

end Mailbox

end Jos
