import Jos.Foundation.Queue
import Jos.Foundation.Run
import Mathlib.Algebra.GroupWithZero.Nat
import Mathlib.Data.List.Perm.Subperm

/-! The cooperative threads of net/lwip/jos/arch: thread.c and threadq.h. `jos_setjmp`
saves the stack in use and the place to go on from, `jos_longjmp` restores both. -/

set_option autoImplicit false

namespace Jos

open Foundation Function

namespace Thread

/-- An address; 0 is the null pointer where the source compares with it. -/
abbrev Ptr := Nat

inductive Point where
  /-- In the code of the thread, which may call any of the functions here. -/
  | user
  /-- At the condition of the loop of `thread_wait`. -/
  | waiting (addr : Ptr) (val msec s p : BitVec 32)
  /-- `thread_yield` has returned in that loop. -/
  | yielded (addr : Ptr) (val msec s : BitVec 32)
deriving DecidableEq, Repr

structure JmpBuf where
  jbRsp : Ptr
  jbRip : Point
deriving DecidableEq, Repr

structure ThreadContext where
  tcTid : Nat
  tcStackBottom : Ptr
  tcJb : JmpBuf
  tcWaitAddr : Ptr
  tcWakeup : Bool
  tcQueueLink : Option Ptr
deriving DecidableEq, Repr

abbrev Heap := Ptr → ThreadContext

def threadqPush (heap : Heap) (tq : Queue Ptr) (tc : Ptr) : Option (Heap × Queue Ptr) :=
  let heap := update heap tc { heap tc with tcQueueLink := none }
  match tq.first, tq.last with
  | none, _ => some (heap, ⟨some tc, some tc⟩)
  | some _, none => none
  | some _, some last =>
    some (update heap last { heap last with tcQueueLink := some tc }, { tq with last := some tc })

def threadqPop (heap : Heap) (tq : Queue Ptr) : Option Ptr × Heap × Queue Ptr :=
  match tq.first with
  | none => (none, heap, tq)
  | some tc =>
    (some tc, update heap tc { heap tc with tcQueueLink := none },
      { tq with first := (heap tc).tcQueueLink })

/-- The data of thread.c, what `malloc` has handed out, the stack in use (none of them
before the first thread runs) and the place on it. The lists of thread ids tell what has
happened: which threads have been created and cleaned, and in which order they have been
put on the queue and taken from it to run. -/
structure Threads where
  heap : Heap
  live : Ptr → Bool
  maxTid : Nat
  curTc : Option Ptr
  threadQueue : Queue Ptr
  killQueue : Queue Ptr
  rsp : Option Ptr
  rip : Point
  exited : Bool
  created : List Nat
  cleaned : List Nat
  pushed : List Nat
  dispatched : List Nat

namespace Threads

/-- `thread_init`, in the first code of the process. -/
def Initial (s : Threads) : Prop :=
  s.maxTid = 0 ∧ s.curTc = none ∧ s.threadQueue = ⟨none, none⟩ ∧ s.killQueue = ⟨none, none⟩ ∧
    s.rsp = none ∧ s.rip = .user ∧ s.exited = false ∧ s.created = [] ∧ s.cleaned = [] ∧
    s.pushed = [] ∧ s.dispatched = []

/-- `threadq_push` on `thread_queue` -/
def enqueue (s : Threads) (tc : Ptr) : Option Threads :=
  (threadqPush s.heap s.threadQueue tc).map fun (heap, tq) =>
    { s with heap, threadQueue := tq, pushed := s.pushed ++ [(s.heap tc).tcTid] }

/-- `jos_longjmp` to a thread that has become the current one. -/
def longjmp (s : Threads) (tc : Ptr) : Threads :=
  { s with
    curTc := some tc
    rsp := some (s.heap tc).tcJb.jbRsp
    rip := (s.heap tc).tcJb.jbRip
    dispatched := s.dispatched ++ [(s.heap tc).tcTid] }

/-- `thread_yield`, which is to go on at a place; `none` when there is no other thread, and
it returns at once. -/
def threadYield (s : Threads) (point : Point) : Option (Option Threads) :=
  match threadqPop s.heap s.threadQueue with
  | (none, _, _) => some none
  | (some next, heap, tq) =>
    let s := { s with heap, threadQueue := tq }
    match s.curTc, s.rsp with
    | none, _ => some (some (s.longjmp next))
    | some _, none => none
    | some cur, some rsp => do
        let heap := update s.heap cur { s.heap cur with tcJb := ⟨rsp, point⟩ }
        let s ← { s with heap }.enqueue cur
        return some (s.longjmp next)

def yieldTo (s : Threads) (point : Point) : Option Threads :=
  (s.threadYield point).map fun switched => switched.getD { s with rip := point }

/-- `thread_clean` -/
def threadClean (s : Threads) (tc : Ptr) : Threads :=
  { s with
    live := update (update s.live (s.heap tc).tcStackBottom false) tc false
    cleaned := s.cleaned ++ [(s.heap tc).tcTid] }

/-- `thread_halt`. When no thread is left to run, the process exits. -/
def threadHalt (s : Threads) : Option Threads := do
  let cur ← s.curTc
  let (dead, heap, kill) := threadqPop s.heap s.killQueue
  let s := { s with heap, killQueue := kill }
  let s := dead.elim s s.threadClean
  let (heap, kill) ← threadqPush s.heap s.killQueue cur
  let s := { s with heap, killQueue := kill, curTc := none }
  let switched ← s.threadYield .user
  return switched.getD { s with exited := true }

/-- The loop of `thread_wakeup`, for as many threads as there can be. -/
def wakeupLoop (addr : Ptr) : Nat → Option Ptr → Heap → Option Heap
  | _, none, heap => some heap
  | 0, some _, _ => none
  | rounds + 1, some tc, heap =>
    let heap :=
      if (heap tc).tcWaitAddr = addr then update heap tc { heap tc with tcWakeup := true }
      else heap
    wakeupLoop addr rounds (heap tc).tcQueueLink heap

end Threads

inductive ThreadEvent where
  /-- `thread_create`, and what the two calls of `malloc` return. -/
  | create (tc stack : Option Ptr)
  | yield
  | halt
  | wakeup (addr : Ptr)
  /-- `thread_wait` is called at a time. -/
  | wait (addr : Ptr) (val msec now : BitVec 32)
  /-- It looks at its condition, with the value at the address. -/
  | poll (value : BitVec 32)
  /-- It reads the time again. -/
  | time (now : BitVec 32)
deriving DecidableEq, Repr

/-- `thread_create`. Memory that is live is not handed out again. -/
def Threads.threadCreate (s : Threads) : Option Ptr → Option Ptr → Option Threads
  | none, _ => some s
  | some tc, stack =>
    if s.live tc = true ∨ s.maxTid + 1 = 2 ^ 32 - 1 then none
    else
      let tid := s.maxTid
      match stack with
      | none => some { s with maxTid := tid + 1 }
      | some stack =>
        if s.live stack = true ∨ stack = tc then none
        else
          let context : ThreadContext :=
            { tcTid := tid
              tcStackBottom := stack
              tcJb := ⟨stack, .user⟩
              tcWaitAddr := 0
              tcWakeup := false
              tcQueueLink := none }
          { s with
            heap := update s.heap tc context
            live := update (update s.live tc true) stack true
            maxTid := tid + 1
            created := s.created ++ [tid] }.enqueue tc

/-- `none` says that the step is not taken here, or that it ends in a fault or a panic. -/
def Threads.step (s : Threads) (event : ThreadEvent) : Option Threads :=
  if s.exited then none
  else
    match s.rip, event with
    | .user, .create tc stack => s.threadCreate tc stack
    | .user, .yield => s.yieldTo .user
    | .user, .halt => s.threadHalt
    | .user, .wakeup addr =>
      (wakeupLoop addr s.maxTid s.threadQueue.first s.heap).map fun heap => { s with heap }
    | .user, .wait addr val msec now =>
      s.curTc.map fun cur =>
        { s with
          heap := update s.heap cur { s.heap cur with tcWaitAddr := addr, tcWakeup := false }
          rip := .waiting addr val msec now now }
    | .waiting addr val msec time p, .poll value =>
      s.curTc.bind fun cur =>
        if p < msec ∧ ¬ p < time ∧ ¬ (addr ≠ 0 ∧ value ≠ val) ∧ ¬ (s.heap cur).tcWakeup then
          s.yieldTo (.yielded addr val msec time)
        else
          some
            { s with
              heap := update s.heap cur { s.heap cur with tcWaitAddr := 0, tcWakeup := false }
              rip := .user }
    | .yielded addr val msec time, .time now =>
      some { s with rip := .waiting addr val msec time now }
    | _, _ => none

/-! The queues. -/

def link (heap : Heap) (tc : Ptr) : Option Ptr := (heap tc).tcQueueLink

def Relinked (heap heap' : Heap) : Prop :=
  ∀ tc, heap' tc = { heap tc with tcQueueLink := (heap' tc).tcQueueLink }

variable {heap heap' : Heap} {tq tq' : Queue Ptr} {cells : List Ptr} {tc : Ptr}

theorem Relinked.trans {heap'' : Heap} (first : Relinked heap heap')
    (second : Relinked heap' heap'') : Relinked heap heap'' := fun tc => by
  rw [second tc, first tc]

theorem relinked_update (l : Option Ptr) :
    Relinked heap (update heap tc { heap tc with tcQueueLink := l }) := fun other => by
  by_cases same : other = tc
  · subst same
    rw [update_self]
  · rw [update_of_ne same]

theorem threadqPop_some (lists : tq.Lists (link heap) cells) (here : tq.first = some tc) :
    ∃ rest heap' tq', cells = tc :: rest ∧ threadqPop heap tq = (some tc, heap', tq') ∧
      tq'.Lists (link heap') rest ∧ Relinked heap heap' ∧ ∀ other, other ≠ tc →
        heap' other = heap other := by
  obtain ⟨rest, rfl, fresh, lists⟩ := lists.pop here
  refine ⟨rest, _, _, rfl, by rw [threadqPop, here]; rfl, lists.congr fun cell member => ?_,
    relinked_update none, fun other differs => update_of_ne differs ..⟩
  unfold link
  rw [update_of_ne (by rintro rfl; exact fresh member)]

theorem threadqPop_none (lists : tq.Lists (link heap) cells) (here : tq.first = none) :
    cells = [] ∧ threadqPop heap tq = (none, heap, tq) :=
  ⟨lists.chain.functional here, by rw [threadqPop, here]⟩

theorem threadqPush_ok (lists : tq.Lists (link heap) cells) (fresh : tc ∉ cells) :
    ∃ heap' tq', threadqPush heap tq tc = some (heap', tq') ∧
      tq'.Lists (link heap') (cells ++ [tc]) ∧ Relinked heap heap' ∧
      ∀ other, other ∉ cells ++ [tc] → heap' other = heap other := by
  have ends : link (update heap tc { heap tc with tcQueueLink := none }) tc = none := by
    unfold link
    rw [update_self]
  cases here : tq.first with
  | none =>
    obtain ⟨rfl, pushed⟩ := lists.push_empty here ends
    refine ⟨_, _, by rw [threadqPush, here], pushed, relinked_update none,
      fun other outside => update_of_ne ?_ ..⟩
    rintro rfl
    exact outside (by simp)
  | some head =>
    have nonempty : tq.first ≠ none := by
      rw [here]
      exact Option.some_ne_none _
    obtain ⟨last, member, there⟩ := lists.last_mem nonempty
    have differs : tc ≠ last := by
      rintro rfl
      exact fresh member
    let cleared := update heap tc { heap tc with tcQueueLink := none }
    have other {p : Ptr} (apart : p ≠ last) :
        update cleared last { cleared last with tcQueueLink := some tc } p = cleared p :=
      update_of_ne apart ..
    refine ⟨_, _, by rw [threadqPush, here, there], lists.push nonempty fresh ?_ ?_ ?_,
      (relinked_update none).trans (relinked_update (some tc)), fun p outside => ?_⟩
    · exact (congrArg ThreadContext.tcQueueLink (other differs)).trans ends
    · rintro last' found
      cases there.symm.trans found
      unfold link
      rw [update_self]
    · intro old known apart
      have apart : old ≠ last := fun same => apart (same ▸ there)
      refine (congrArg ThreadContext.tcQueueLink (other apart)).trans ?_
      refine congrArg ThreadContext.tcQueueLink (update_of_ne ?_ ..)
      rintro rfl
      exact fresh known
    · rw [List.mem_append, List.mem_singleton, not_or] at outside
      have apart : p ≠ last := by
        rintro rfl
        exact outside.1 member
      exact (other apart).trans (update_of_ne outside.2 ..)

/-! What holds of the threads in every run. -/

namespace Threads

def all (s : Threads) (queue kill : List Ptr) : List Ptr := s.curTc.toList ++ (queue ++ kill)

def tids (heap : Heap) (tcs : List Ptr) : List Nat := tcs.map fun tc => (heap tc).tcTid

/-- Every thread that has been created and not been cleaned is the current one, or is once
on one of the queues, and has a stack of its own. -/
structure Kept (s : Threads) (queue kill : List Ptr) : Prop where
  queued : s.threadQueue.Lists (link s.heap) queue
  killed : s.killQueue.Lists (link s.heap) kill
  one : kill.length ≤ 1
  nodup : (s.all queue kill).Nodup
  live : ∀ tc ∈ s.all queue kill, s.live tc = true ∧ s.live (s.heap tc).tcStackBottom = true
  apart : ∀ tc ∈ s.all queue kill, ∀ tc' ∈ s.all queue kill, (s.heap tc).tcStackBottom ≠ tc'
  own : ∀ tc ∈ s.all queue kill, ∀ tc' ∈ s.all queue kill,
    (s.heap tc).tcStackBottom = (s.heap tc').tcStackBottom → tc = tc'
  running : ∀ cur, s.curTc = some cur → s.rsp = some (s.heap cur).tcStackBottom
  saved : ∀ tc ∈ queue, (s.heap tc).tcJb.jbRsp = (s.heap tc).tcStackBottom
  conserved : s.created.Perm (tids s.heap (s.all queue kill) ++ s.cleaned)
  distinct : s.created.Nodup
  bounded : ∀ tid ∈ s.created, tid < s.maxTid
  fifo : s.pushed = s.dispatched ++ tids s.heap queue

def Agree (heap heap' : Heap) : Prop :=
  ∀ tc, (heap' tc).tcTid = (heap tc).tcTid ∧ (heap' tc).tcStackBottom = (heap tc).tcStackBottom

variable {s s' : Threads} {queue kill queue' kill' : List Ptr} {point : Point} {event : ThreadEvent}

theorem Agree.tids_eq (agree : Agree heap heap') (tcs : List Ptr) :
    tids heap' tcs = tids heap tcs :=
  List.map_congr_left fun tc _ => (agree tc).1

theorem Agree.of_relinked (relinked : Relinked heap heap') : Agree heap heap' := fun tc => by
  rw [relinked tc]
  exact ⟨rfl, rfl⟩

theorem Agree.trans {heap'' : Heap} (first : Agree heap heap') (second : Agree heap' heap'') :
    Agree heap heap'' := fun tc =>
  ⟨(second tc).1.trans (first tc).1, (second tc).2.trans (first tc).2⟩

theorem agree_update {value : ThreadContext} (tid : value.tcTid = (heap tc).tcTid)
    (stack : value.tcStackBottom = (heap tc).tcStackBottom) :
    Agree heap (update heap tc value) := fun other => by
  by_cases same : other = tc
  · subst same
    rw [update_self]
    exact ⟨tid, stack⟩
  · rw [update_of_ne same]
    exact ⟨rfl, rfl⟩

theorem tids_append (first second : List Ptr) :
    tids heap (first ++ second) = tids heap first ++ tids heap second := List.map_append

theorem Kept.move (kept : s.Kept queue kill) (agree : Agree s.heap s'.heap)
    (lists : s'.threadQueue.Lists (link s'.heap) queue')
    (listed : s'.killQueue.Lists (link s'.heap) kill') (one : kill'.length ≤ 1)
    (perm : (s'.all queue' kill').Perm (s.all queue kill)) (live : s'.live = s.live)
    (running : ∀ cur, s'.curTc = some cur → s'.rsp = some (s'.heap cur).tcStackBottom)
    (saved : ∀ tc ∈ queue', (s'.heap tc).tcJb.jbRsp = (s'.heap tc).tcStackBottom)
    (created : s'.created = s.created) (cleaned : s'.cleaned = s.cleaned)
    (maxTid : s'.maxTid = s.maxTid) (fifo : s'.pushed = s'.dispatched ++ tids s.heap queue') :
    s'.Kept queue' kill' where
  queued := lists
  killed := listed
  one := one
  nodup := perm.nodup_iff.mpr kept.nodup
  live tc member := by
    rw [live, (agree tc).2]
    exact kept.live tc (perm.mem_iff.mp member)
  apart tc member tc' member' := by
    rw [(agree tc).2]
    exact kept.apart tc (perm.mem_iff.mp member) tc' (perm.mem_iff.mp member')
  own tc member tc' member' same := by
    rw [(agree tc).2, (agree tc').2] at same
    exact kept.own tc (perm.mem_iff.mp member) tc' (perm.mem_iff.mp member') same
  running := running
  saved := saved
  conserved := by
    rw [created, cleaned, agree.tids_eq]
    exact kept.conserved.trans ((perm.symm.map _).append_right _)
  distinct := created ▸ kept.distinct
  bounded tid member := by
    rw [created] at member
    rw [maxTid]
    exact kept.bounded tid member
  fifo := by rw [fifo, agree.tids_eq]

structure Advances (s s' : Threads) : Prop where
  dispatched : s.dispatched <+: s'.dispatched
  pushed : s.pushed <+: s'.pushed

structure Switches (s s' : Threads) (next : Ptr) (rest kill : List Ptr) : Prop where
  kept : s'.Kept (rest ++ s.curTc.toList) kill
  current : s'.curTc = some next
  live : s'.live = s.live
  exited : s'.exited = s.exited
  advances : s.Advances s'

theorem threadYield_first {next : Ptr} (popped : threadqPop s.heap s.threadQueue =
    (some next, heap, tq)) (cur : s.curTc = none) :
    s.threadYield point = some (some (longjmp { s with heap, threadQueue := tq } next)) := by
  simp only [threadYield, popped, cur]

theorem threadYield_switch {next cur stack : Ptr} (popped : threadqPop s.heap s.threadQueue =
    (some next, heap, tq)) (current : s.curTc = some cur) (rsp : s.rsp = some stack) :
    s.threadYield point = (enqueue { s with
      heap := update heap cur { heap cur with tcJb := ⟨stack, point⟩ }
      threadQueue := tq } cur).map fun s => some (s.longjmp next) := by
  simp only [threadYield, popped, current, rsp]
  rw [Option.map_eq_bind]
  rfl

theorem Kept.threadYield_none (kept : s.Kept [] kill) : s.threadYield point = some none := by
  obtain ⟨-, popped⟩ := threadqPop_none kept.queued kept.queued.chain
  rw [threadYield, popped]

theorem Kept.threadYield_some {next : Ptr} {rest : List Ptr}
    (kept : s.Kept (next :: rest) kill) (point : Point) :
    ∃ s', s.threadYield point = some (some s') ∧ s.Switches s' next rest kill := by
  have here : s.threadQueue.first = some next := kept.queued.chain.1
  obtain ⟨rest', heap₁, tq₁, same, popped, lists₁, relinked₁, other₁⟩ :=
    threadqPop_some kept.queued here
  obtain rfl : rest = rest' := (List.cons.inj same).2
  have nodup := kept.nodup
  have unkilled (tc : Ptr) (member : tc ∈ kill) : tc ∉ next :: rest ∧ s.curTc ≠ some tc := by
    obtain ⟨-, inner, outer⟩ := List.nodup_append.mp nodup
    refine ⟨fun listed => (List.nodup_append.mp inner).2.2 tc listed tc member rfl, fun cur => ?_⟩
    exact outer tc (by simp [cur]) tc (List.mem_append_right _ member) rfl
  have jump (tc : Ptr) (member : tc ∈ next :: rest) :
      (heap₁ tc).tcJb.jbRsp = (heap₁ tc).tcStackBottom := by
    rw [relinked₁ tc]
    exact kept.saved tc member
  cases cur : s.curTc with
  | none =>
    refine ⟨_, threadYield_first popped cur, ?_, rfl, rfl, rfl, ⟨_, rfl⟩, List.prefix_rfl⟩
    rw [cur, Option.toList_none, List.append_nil]
    refine kept.move (.of_relinked relinked₁) lists₁ (kept.killed.congr fun tc member => ?_)
      kept.one ?_ rfl ?_ ?_ rfl rfl rfl ?_
    · change link heap₁ tc = link s.heap tc
      unfold link
      rw [other₁ tc (by rintro rfl; exact (unkilled _ member).1 List.mem_cons_self)]
    · simp [all, cur, longjmp]
    · rintro _ ⟨rfl⟩
      exact congrArg some (jump next List.mem_cons_self)
    · exact fun tc member => jump tc (List.mem_cons_of_mem _ member)
    · rw [kept.fifo, longjmp, (Agree.of_relinked relinked₁ next).1, List.append_assoc]
      rfl
  | some c =>
    have outside : c ∉ next :: rest := fun member =>
      (List.nodup_append.mp nodup).2.2 c (by simp [cur]) c (List.mem_append_left _ member) rfl
    set heap₂ := update heap₁ c
      { heap₁ c with tcJb := ⟨(s.heap c).tcStackBottom, point⟩ } with saved
    have second {tc : Ptr} (differs : tc ≠ c) : heap₂ tc = heap₁ tc := update_of_ne differs ..
    have lists₂ : tq₁.Lists (link heap₂) rest := lists₁.congr fun tc member => by
      unfold link
      rw [second (ne_of_mem_of_not_mem (List.mem_cons_of_mem _ member) outside)]
    obtain ⟨heap₃, tq₃, pushed, lists₃, relinked₃, other₃⟩ :=
      threadqPush_ok lists₂ fun member => outside (List.mem_cons_of_mem _ member)
    have agree₂ : Agree s.heap heap₂ :=
      (Agree.of_relinked relinked₁).trans (agree_update rfl rfl)
    have agree : Agree s.heap heap₃ := agree₂.trans (.of_relinked relinked₃)
    have third {tc : Ptr} (member : tc ∈ next :: rest) :
        (heap₃ tc).tcJb.jbRsp = (heap₃ tc).tcStackBottom := by
      rw [relinked₃ tc, second (ne_of_mem_of_not_mem member outside)]
      exact jump tc member
    have queued : enqueue { s with heap := heap₂, threadQueue := tq₁ } c =
        some { s with
          heap := heap₃
          threadQueue := tq₃
          pushed := s.pushed ++ [(heap₂ c).tcTid] } := by
      rw [enqueue, pushed]
      rfl
    have ran := @threadYield_switch _ _ s point _ _ _ popped cur (kept.running c cur)
    rw [queued, Option.map_some] at ran
    refine ⟨_, ran, ?_, rfl, rfl, rfl, ⟨_, rfl⟩, ⟨_, rfl⟩⟩
    rw [cur, Option.toList_some]
    refine kept.move agree lists₃ (kept.killed.congr fun tc member => ?_) kept.one ?_ rfl ?_ ?_
      rfl rfl rfl ?_
    · obtain ⟨unlisted, notCur⟩ := unkilled tc member
      have differs : tc ≠ c := by
        rintro rfl
        exact notCur cur
      have unlisted₃ : tc ∉ rest ++ [c] := by
        rw [List.mem_append, List.mem_singleton, not_or]
        exact ⟨fun listed => unlisted (List.mem_cons_of_mem _ listed), differs⟩
      change link heap₃ tc = link s.heap tc
      unfold link
      rw [other₃ tc unlisted₃, second differs,
        other₁ tc (by rintro rfl; exact unlisted List.mem_cons_self)]
    · have rotated : (next :: rest ++ [c]).Perm (c :: next :: rest) :=
        List.perm_append_singleton c _
      unfold all
      rw [cur]
      exact rotated.append_right kill
    · rintro _ ⟨rfl⟩
      exact congrArg some (third List.mem_cons_self)
    · intro tc member
      rcases List.mem_append.mp member with listed | last
      · exact third (List.mem_cons_of_mem _ listed)
      · obtain rfl := List.mem_singleton.mp last
        change (heap₃ tc).tcJb.jbRsp = (heap₃ tc).tcStackBottom
        rw [relinked₃ tc, saved, update_self]
        exact (Agree.of_relinked relinked₁ tc).2.symm
    · change s.pushed ++ [(heap₂ c).tcTid] =
        s.dispatched ++ [(heap₃ next).tcTid] ++ tids s.heap (rest ++ [c])
      rw [kept.fifo, (agree₂ c).1, (agree next).1]
      simp [tids]

/-- The first thread on `kill_queue` is cleaned. -/
theorem Kept.cleaned {dead : Ptr} (kept : s.Kept queue [dead]) :
    ∃ heap' tq', threadqPop s.heap s.killQueue = (some dead, heap', tq') ∧
      (threadClean { s with heap := heap', killQueue := tq' } dead).Kept queue [] ∧
      Agree s.heap heap' := by
  obtain ⟨rest, heap', tq', same, popped, lists, relinked, other⟩ :=
    threadqPop_some kept.killed kept.killed.chain.1
  obtain rfl : [] = rest := (List.cons.inj same).2
  have agree := Agree.of_relinked relinked
  have whole : s.all queue [dead] = s.all queue [] ++ [dead] := by simp [all]
  have older {tc : Ptr} (member : tc ∈ s.all queue []) : tc ∈ s.all queue [dead] := by
    rw [whole]
    exact List.mem_append_left _ member
  have last : dead ∈ s.all queue [dead] := by simp [all]
  have fresh {tc : Ptr} (member : tc ∈ s.all queue []) : tc ≠ dead := by
    have nodup := kept.nodup
    rw [whole] at nodup
    exact (List.nodup_append.mp nodup).2.2 tc member dead (by simp)
  have queued {tc : Ptr} (member : tc ∈ queue) : tc ≠ dead :=
    fresh (List.mem_append_right _ (List.mem_append_left _ member))
  refine ⟨heap', tq', popped, ?_, agree⟩
  exact
    { queued := kept.queued.congr fun tc member => by
        change (heap' tc).tcQueueLink = (s.heap tc).tcQueueLink
        rw [other tc (queued member)]
      killed := lists
      one := Nat.zero_le 1
      nodup := by
        have nodup := kept.nodup
        rw [whole] at nodup
        exact (List.nodup_append.mp nodup).1
      live := by
        intro tc member
        have own : (s.heap tc).tcStackBottom ≠ (s.heap dead).tcStackBottom := fun same =>
          fresh member (kept.own tc (older member) dead last same)
        have stack := kept.apart tc (older member) dead last
        have context := (kept.apart dead last tc (older member)).symm
        simp only [threadClean, (agree _).2]
        rw [update_of_ne (fresh member), update_of_ne context, update_of_ne stack,
          update_of_ne own]
        exact kept.live tc (older member)
      apart := by
        intro tc member tc' member'
        simp only [threadClean, (agree _).2]
        exact kept.apart tc (older member) tc' (older member')
      own := by
        intro tc member tc' member'
        simp only [threadClean, (agree _).2]
        exact kept.own tc (older member) tc' (older member')
      running := by
        intro cur current
        simp only [threadClean, (agree _).2]
        exact kept.running cur current
      saved := by
        intro tc member
        change (heap' tc).tcJb.jbRsp = (heap' tc).tcStackBottom
        rw [other tc (queued member)]
        exact kept.saved tc member
      conserved := by
        have perm := kept.conserved
        rw [whole, tids, List.map_append, List.append_assoc] at perm
        simp only [threadClean, (agree _).1, agree.tids_eq]
        refine perm.trans (List.Perm.append_left _ ?_)
        exact (List.perm_append_singleton _ _).symm
      distinct := kept.distinct
      bounded := kept.bounded
      fifo := by
        simp only [threadClean, agree.tids_eq]
        exact kept.fifo }

/-- The current thread goes to `kill_queue`. -/
theorem Kept.buried {cur : Ptr} (kept : s.Kept queue []) (current : s.curTc = some cur) :
    ∃ heap' tq', threadqPush s.heap s.killQueue cur = some (heap', tq') ∧
      Kept { s with heap := heap', killQueue := tq', curTc := none } queue [cur] ∧
      Agree s.heap heap' := by
  obtain ⟨heap', tq', pushed, lists, relinked, other⟩ :=
    @threadqPush_ok _ _ _ cur kept.killed (by simp)
  have agree := Agree.of_relinked relinked
  have outside {tc : Ptr} (member : tc ∈ queue) : tc ∉ [] ++ [cur] := by
    rw [List.nil_append, List.mem_singleton]
    rintro rfl
    exact (List.nodup_append.mp kept.nodup).2.2 tc (by simp [current]) tc
      (List.mem_append_left _ member) rfl
  refine ⟨heap', tq', pushed, ?_, agree⟩
  refine kept.move agree (kept.queued.congr fun tc member => ?_) lists le_rfl ?_ rfl nofun
    (fun tc member => ?_) rfl rfl rfl kept.fifo
  · change (heap' tc).tcQueueLink = (s.heap tc).tcQueueLink
    rw [other tc (outside member)]
  · simp only [all, current, Option.toList_none, Option.toList_some, List.nil_append,
      List.append_nil]
    exact List.perm_append_singleton cur queue
  · change (heap' tc).tcJb.jbRsp = (heap' tc).tcStackBottom
    rw [other tc (outside member)]
    exact kept.saved tc member

theorem Kept.spawned {stack : Ptr} (kept : s.Kept queue kill) (fresh : s.live tc = false)
    (freshStack : s.live stack = false) (differs : stack ≠ tc) {context : ThreadContext}
    (tid : context.tcTid = s.maxTid) (bottom : context.tcStackBottom = stack)
    (jb : context.tcJb.jbRsp = stack) :
    ∃ heap' tq', threadqPush (update s.heap tc context) s.threadQueue tc = some (heap', tq') ∧
      Kept { s with
        heap := heap'
        threadQueue := tq'
        live := update (update s.live tc true) stack true
        maxTid := s.maxTid + 1
        created := s.created ++ [s.maxTid]
        pushed := s.pushed ++ [s.maxTid] } (queue ++ [tc]) kill := by
  set heap₁ := update s.heap tc context with stored
  have here : heap₁ tc = context := update_self ..
  have unknown {p : Ptr} (member : p ∈ s.all queue kill) : p ≠ tc ∧ p ≠ stack := by
    have live := (kept.live p member).1
    constructor
    · rintro rfl
      exact Bool.false_ne_true (fresh.symm.trans live)
    · rintro rfl
      exact Bool.false_ne_true (freshStack.symm.trans live)
  have unused {p : Ptr} (member : p ∈ s.all queue kill) :
      (s.heap p).tcStackBottom ≠ tc ∧ (s.heap p).tcStackBottom ≠ stack := by
    have live := (kept.live p member).2
    constructor
    · intro same
      rw [same] at live
      exact Bool.false_ne_true (fresh.symm.trans live)
    · intro same
      rw [same] at live
      exact Bool.false_ne_true (freshStack.symm.trans live)
  have old {p : Ptr} (member : p ∈ s.all queue kill) : heap₁ p = s.heap p :=
    update_of_ne (unknown member).1 ..
  have queued {p : Ptr} (member : p ∈ queue) : p ∈ s.all queue kill :=
    List.mem_append_right _ (List.mem_append_left _ member)
  have killed {p : Ptr} (member : p ∈ kill) : p ∈ s.all queue kill :=
    List.mem_append_right _ (List.mem_append_right _ member)
  have lists₁ : s.threadQueue.Lists (link heap₁) queue := kept.queued.congr fun p member => by
    unfold link
    rw [old (queued member)]
  obtain ⟨heap', tq', pushed, lists, relinked, other⟩ :=
    threadqPush_ok lists₁ fun member => (unknown (queued member)).1 rfl
  have agree := Agree.of_relinked relinked
  have field {p : Ptr} (member : p ∈ s.all queue kill) : (heap' p).tcTid = (s.heap p).tcTid ∧
      (heap' p).tcStackBottom = (s.heap p).tcStackBottom := by
    rw [(agree p).1, (agree p).2, old member]
    exact ⟨rfl, rfl⟩
  have newTid : (heap' tc).tcTid = s.maxTid := by rw [(agree tc).1, here, tid]
  have newStack : (heap' tc).tcStackBottom = stack := by rw [(agree tc).2, here, bottom]
  have perm : (s.curTc.toList ++ (queue ++ [tc] ++ kill)).Perm (tc :: s.all queue kill) := by
    have moved : (queue ++ [tc] ++ kill).Perm (tc :: (queue ++ kill)) := by
      rw [List.append_assoc]
      exact List.perm_middle
    exact (moved.append_left _).trans List.perm_middle
  have same : tids heap' (s.all queue kill) = tids s.heap (s.all queue kill) :=
    List.map_congr_left fun p member => (field member).1
  have cases_of {p : Ptr} (member : p ∈ s.curTc.toList ++ (queue ++ [tc] ++ kill)) :
      p = tc ∨ p ∈ s.all queue kill := List.mem_cons.mp (perm.mem_iff.mp member)
  refine ⟨heap', tq', pushed, ?_⟩
  exact
    { queued := lists
      killed := kept.killed.congr fun p member => by
        have outside : p ∉ queue ++ [tc] := by
          rw [List.mem_append, List.mem_singleton, not_or]
          refine ⟨fun listed => ?_, (unknown (killed member)).1⟩
          have inner := (List.nodup_append.mp kept.nodup).2.1
          exact (List.nodup_append.mp inner).2.2 p listed p member rfl
        change (heap' p).tcQueueLink = (s.heap p).tcQueueLink
        rw [other p outside, old (killed member)]
      one := kept.one
      nodup := perm.nodup_iff.mpr
        (List.nodup_cons.mpr ⟨fun member => (unknown member).1 rfl, kept.nodup⟩)
      live := by
        intro p member
        rcases cases_of member with rfl | older
        · simp only [newStack]
          refine ⟨?_, update_self ..⟩
          rw [update_of_ne differs.symm]
          exact update_self ..
        · simp only [(field older).2]
          rw [update_of_ne (unknown older).2, update_of_ne (unknown older).1,
            update_of_ne (unused older).2, update_of_ne (unused older).1]
          exact kept.live p older
      apart := by
        intro p member p' member'
        rcases cases_of member with rfl | older <;> rcases cases_of member' with rfl | older'
        · simp only [newStack]
          exact differs
        · simp only [newStack]
          exact (unknown older').2.symm
        · simp only [(field older).2]
          exact (unused older).1
        · simp only [(field older).2]
          exact kept.apart p older p' older'
      own := by
        intro p member p' member'
        rcases cases_of member with rfl | older <;> rcases cases_of member' with rfl | older'
        · exact fun _ => rfl
        · simp only [newStack, (field older').2]
          exact fun same => absurd same.symm (unused older').2
        · simp only [newStack, (field older).2]
          exact fun same => absurd same (unused older).2
        · simp only [(field older).2, (field older').2]
          exact kept.own p older p' older'
      running := by
        intro cur current
        have current : s.curTc = some cur := current
        have member : cur ∈ s.all queue kill := List.mem_append_left _ (by simp [current])
        simp only [(field member).2]
        exact kept.running cur current
      saved := by
        intro p member
        change (heap' p).tcJb.jbRsp = (heap' p).tcStackBottom
        rw [relinked p]
        rcases List.mem_append.mp member with listed | last
        · rw [old (queued listed)]
          exact kept.saved p listed
        · obtain rfl := List.mem_singleton.mp last
          rw [here, jb, bottom]
      conserved := by
        have whole : (tids heap' (s.curTc.toList ++ (queue ++ [tc] ++ kill))).Perm
            (s.maxTid :: tids s.heap (s.all queue kill)) := by
          rw [← same, ← newTid]
          exact perm.map _
        refine (List.perm_append_singleton _ _).trans ?_
        exact (kept.conserved.cons _).trans (whole.symm.append_right s.cleaned)
      distinct := by
        refine (List.perm_append_singleton _ _).nodup_iff.mpr
          (List.nodup_cons.mpr ⟨fun member => ?_, kept.distinct⟩)
        exact absurd (kept.bounded _ member) (lt_irrefl _)
      bounded := by
        intro p member
        rcases List.mem_append.mp member with older | last
        · exact Nat.lt_succ_of_lt (kept.bounded p older)
        · obtain rfl := List.mem_singleton.mp last
          exact Nat.lt_succ_self _
      fifo := by
        have rest : tids heap' queue = tids s.heap queue :=
          List.map_congr_left fun p member => (field (queued member)).1
        change s.pushed ++ [s.maxTid] = s.dispatched ++ tids heap' (queue ++ [tc])
        have last : tids heap' [tc] = [s.maxTid] := by rw [tids, List.map_singleton, newTid]
        rw [kept.fifo, tids_append, rest, last, List.append_assoc] }

def Noted (heap heap' : Heap) : Prop :=
  ∀ tc, heap' tc =
    { heap tc with tcWaitAddr := (heap' tc).tcWaitAddr, tcWakeup := (heap' tc).tcWakeup }

theorem noted_update (addr : Ptr) (wakeup : Bool) :
    Noted heap (update heap tc { heap tc with tcWaitAddr := addr, tcWakeup := wakeup }) :=
  fun other => by
    by_cases same : other = tc
    · subst same
      rw [update_self]
    · rw [update_of_ne same]

theorem Noted.trans {heap'' : Heap} (first : Noted heap heap') (second : Noted heap' heap'') :
    Noted heap heap'' := fun tc => by
  rw [second tc, first tc]

theorem Kept.noted (kept : s.Kept queue kill) (noted : Noted s.heap heap') :
    Kept { s with heap := heap', rip := point } queue kill := by
  have agree : Agree s.heap heap' := fun tc => by
    rw [noted tc]
    exact ⟨rfl, rfl⟩
  have links (tc : Ptr) : link heap' tc = link s.heap tc := by
    unfold link
    rw [noted tc]
  refine kept.move agree (kept.queued.congr fun tc _ => links tc)
    (kept.killed.congr fun tc _ => links tc) kept.one (.refl _) rfl (fun cur current => ?_)
    (fun tc member => ?_) rfl rfl rfl kept.fifo
  · change s.rsp = some (heap' cur).tcStackBottom
    rw [(agree cur).2]
    exact kept.running cur current
  · change (heap' tc).tcJb.jbRsp = (heap' tc).tcStackBottom
    rw [noted tc]
    exact kept.saved tc member

theorem wakeupLoop_ok {addr : Ptr} {rounds : Nat} {head : Option Ptr}
    (chain : Chain (link heap) head cells) (fits : cells.length ≤ rounds) :
    ∃ heap', wakeupLoop addr rounds head heap = some heap' ∧ Noted heap heap' := by
  induction cells generalizing heap head rounds with
  | nil =>
    obtain rfl := chain
    cases rounds with
    | zero => exact ⟨heap, rfl, fun _ => rfl⟩
    | succ rounds => exact ⟨heap, rfl, fun _ => rfl⟩
  | cons tc rest ih =>
    obtain ⟨rfl, tail⟩ := chain
    cases rounds with
    | zero => cases fits
    | succ rounds =>
      set heap₁ := if (heap tc).tcWaitAddr = addr then
        update heap tc { heap tc with tcWakeup := true } else heap with noting
      have noted : Noted heap heap₁ := by
        rw [noting]
        split
        · exact noted_update _ _
        · exact fun _ => rfl
      have links : link heap₁ = link heap := by
        funext other
        unfold link
        rw [noted other]
      obtain ⟨heap', ran, later⟩ := ih (by rw [links]; exact tail)
        (Nat.le_of_succ_le_succ fits)
      exact ⟨heap', by rw [← links] at ran; exact ran, noted.trans later⟩

theorem Kept.few (kept : s.Kept queue kill) : queue.length ≤ s.maxTid := by
  have within : s.created ⊆ List.range s.maxTid := fun tid member =>
    List.mem_range.mpr (kept.bounded tid member)
  have bound := (List.subperm_of_subset kept.distinct within).length_le
  have length := kept.conserved.length_eq
  rw [List.length_range] at bound
  simp only [tids, all, List.length_append, List.length_map] at length
  omega

/-- What holds in every run. The stack in use is never one that has been freed. -/
structure Ruled (s : Threads) (queue kill : List Ptr) : Prop where
  kept : s.Kept queue kill
  alone : s.curTc = none → s.exited = false → s.rsp = none
  standing : ∀ stack, s.rsp = some stack → s.live stack = true

structure Steps (s s' : Threads) (queue' kill' : List Ptr) : Prop where
  ruled : s'.Ruled queue' kill'
  advances : s.Advances s'
  freed : ∀ p, s.live p = true → s'.live p = false → s.rsp ≠ some p

theorem Advances.refl : s.Advances s := ⟨List.prefix_rfl, List.prefix_rfl⟩

theorem Switches.steps {next : Ptr} {rest : List Ptr} (switches : s.Switches s' next rest kill) :
    s.Steps s' (rest ++ s.curTc.toList) kill := by
  refine ⟨⟨switches.kept, fun none => ?_, fun stack used => ?_⟩, switches.advances,
    fun p live freed => ?_⟩
  · rw [switches.current] at none
    cases none
  · rw [switches.kept.running next switches.current] at used
    cases used
    exact (switches.kept.live next (List.mem_append_left _ (by simp [switches.current]))).2
  · rw [switches.live, live] at freed
    cases freed

theorem Ruled.yields (ruled : s.Ruled queue kill) (point : Point) :
    ∃ s' queue', s.yieldTo point = some s' ∧ s.Steps s' queue' kill := by
  unfold yieldTo
  cases queue with
  | nil =>
    rw [ruled.kept.threadYield_none]
    refine ⟨_, [], rfl, ⟨⟨ruled.kept.noted fun _ => rfl, ruled.alone, ruled.standing⟩,
      ⟨List.prefix_rfl, List.prefix_rfl⟩, fun p live freed => ?_⟩⟩
    exact absurd (live.symm.trans freed) (by decide)
  | cons next rest =>
    obtain ⟨s', ran, switches⟩ := ruled.kept.threadYield_some point
    rw [ran]
    exact ⟨s', _, rfl, switches.steps⟩

theorem threadHalt_eq {cur : Ptr} {dead : Option Ptr} {heap₁ heap₂ : Heap}
    {kill₁ kill₂ : Queue Ptr} (current : s.curTc = some cur)
    (popped : threadqPop s.heap s.killQueue = (dead, heap₁, kill₁))
    (cleaned : dead.elim { s with heap := heap₁, killQueue := kill₁ }
      (threadClean { s with heap := heap₁, killQueue := kill₁ }) = s')
    (pushed : threadqPush s'.heap s'.killQueue cur = some (heap₂, kill₂)) :
    s.threadHalt = (threadYield { s' with heap := heap₂, killQueue := kill₂, curTc := none }
      .user).map fun switched => switched.getD
        { s' with heap := heap₂, killQueue := kill₂, curTc := none, exited := true } := by
  subst cleaned
  unfold threadHalt
  refine (congrArg (fun found => Option.bind found _) current).trans ?_
  simp only [Option.bind_eq_bind, Option.bind_some, popped]
  rw [pushed, Option.bind_some, Option.map_eq_bind]
  rfl

theorem Kept.cleans {cur : Ptr} (kept : s.Kept queue kill) (current : s.curTc = some cur) :
    ∃ dead heap₁ kill₁ s', threadqPop s.heap s.killQueue = (dead, heap₁, kill₁) ∧
      dead.elim { s with heap := heap₁, killQueue := kill₁ }
        (threadClean { s with heap := heap₁, killQueue := kill₁ }) = s' ∧ s'.Kept queue [] ∧
      Agree s.heap s'.heap ∧ s'.curTc = some cur ∧ s'.rsp = s.rsp ∧ s.Advances s' := by
  rcases List.eq_nil_or_concat kill with rfl | ⟨front, dead, rfl⟩
  · obtain ⟨-, popped⟩ := threadqPop_none kept.killed kept.killed.chain
    exact ⟨none, s.heap, s.killQueue, s, popped, rfl, kept, fun _ => ⟨rfl, rfl⟩, current, rfl,
      .refl⟩
  · have one := kept.one
    rw [List.length_concat] at one
    obtain rfl : front = [] := List.length_eq_zero_iff.mp (by omega)
    obtain ⟨heap₁, kill₁, popped, kept₁, agree⟩ := Kept.cleaned kept
    exact ⟨some dead, heap₁, kill₁, _, popped, rfl, kept₁, agree, current, rfl,
      ⟨List.prefix_rfl, List.prefix_rfl⟩⟩

theorem Ruled.halts {cur : Ptr} (ruled : s.Ruled queue kill) (current : s.curTc = some cur) :
    ∃ s' queue' kill', s.threadHalt = some s' ∧ s.Steps s' queue' kill' := by
  obtain ⟨dead, heap₁, kill₁, s₁, popped, cleaned, kept₁, agree₁, current₁, rsp₁, advances₁⟩ :=
    ruled.kept.cleans current
  obtain ⟨heap₂, kill₂, pushed, kept₂, agree₂⟩ := kept₁.buried current₁
  have ran := threadHalt_eq current popped cleaned pushed
  have used : s.rsp = some (heap₂ cur).tcStackBottom := by
    rw [(agree₂ cur).2, (agree₁ cur).2]
    exact ruled.kept.running cur current
  have live : s₁.live (heap₂ cur).tcStackBottom = true := by
    refine (kept₂.live cur ?_).2
    simp [all]
  have freed (p : Ptr) (gone : s₁.live p = false) : s.rsp ≠ some p := by
    intro same
    cases used.symm.trans same
    exact Bool.false_ne_true (gone.symm.trans live)
  cases queue with
  | nil =>
    rw [kept₂.threadYield_none] at ran
    refine ⟨_, [], [cur], ran, ⟨?_, nofun, fun stack here => ?_⟩,
      ⟨advances₁.dispatched, advances₁.pushed⟩, fun p _ => freed p⟩
    · exact { kept₂ with }
    · obtain rfl := Option.some.inj ((rsp₁.trans used).symm.trans here)
      exact live
  | cons next rest =>
    obtain ⟨s', switched, switches⟩ := kept₂.threadYield_some .user
    rw [switched] at ran
    have steps := switches.steps
    refine ⟨s', _, _, ran, steps.ruled, ⟨?_, ?_⟩, fun p _ gone => freed p ?_⟩
    · exact advances₁.dispatched.trans steps.advances.dispatched
    · exact advances₁.pushed.trans steps.advances.pushed
    · rw [← gone]
      exact (congrFun switches.live p).symm

theorem Ruled.notes (ruled : s.Ruled queue kill) (noted : Noted s.heap heap') :
    s.Steps { s with heap := heap', rip := point } queue kill :=
  ⟨⟨ruled.kept.noted noted, ruled.alone, ruled.standing⟩, ⟨List.prefix_rfl, List.prefix_rfl⟩,
    fun _ live freed => absurd (live.symm.trans freed) (by decide)⟩

theorem Ruled.creates {tc stack : Option Ptr} (ruled : s.Ruled queue kill)
    (ran : s.threadCreate tc stack = some s') :
    ∃ queue' kill', s.Steps s' queue' kill' := by
  cases tc with
  | none =>
    cases ran
    exact ⟨queue, kill, ruled, .refl, fun _ live freed => absurd (live.symm.trans freed) (by decide)⟩
  | some tc =>
    simp only [threadCreate] at ran
    split at ran
    · cases ran
    rename_i possible
    obtain ⟨fresh, -⟩ := not_or.mp possible
    cases stack with
    | none =>
      cases ran
      refine ⟨queue, kill, ⟨?_, ruled.alone, ruled.standing⟩,
        ⟨List.prefix_rfl, List.prefix_rfl⟩,
        fun _ live freed => absurd (live.symm.trans freed) (by decide)⟩
      exact { ruled.kept with
        bounded := fun tid member => Nat.lt_succ_of_lt (ruled.kept.bounded tid member) }
    | some stack =>
      simp only at ran
      split at ran
      · cases ran
      rename_i possible
      obtain ⟨freshStack, differs⟩ := not_or.mp possible
      have fresh : s.live tc = false := by simpa using fresh
      have freshStack : s.live stack = false := by simpa using freshStack
      let context : ThreadContext := ⟨s.maxTid, stack, ⟨stack, .user⟩, 0, false, none⟩
      obtain ⟨heap', tq', pushed, kept⟩ :=
        @Kept.spawned tc s queue kill stack ruled.kept fresh freshStack differs context
          rfl rfl rfl
      obtain ⟨⟨heap, tq⟩, found, rfl⟩ := Option.map_eq_some_iff.mp ran
      cases found.symm.trans pushed
      have kept_live (p : Ptr) (live : s.live p = true) :
          update (update s.live tc true) stack true p = true := by
        by_cases first : p = stack
        · rw [first, update_self]
        · by_cases second : p = tc
          · rw [update_of_ne first, second, update_self]
          · rw [update_of_ne first, update_of_ne second, live]
      refine ⟨queue ++ [tc], kill,
        ⟨?_, ruled.alone, fun p used => kept_live p (ruled.standing p used)⟩,
        ⟨List.prefix_rfl, ⟨_, rfl⟩⟩, fun p live freed => ?_⟩
      · simpa only [update_self] using kept
      · exact absurd ((kept_live p live).symm.trans freed) (by decide)

theorem Ruled.step (ruled : s.Ruled queue kill) (stepped : s.step event = some s') :
    ∃ queue' kill', s.Steps s' queue' kill' := by
  unfold Threads.step at stepped
  split at stepped
  · cases stepped
  split at stepped
  · exact ruled.creates stepped
  · obtain ⟨s₁, queue', ran, steps⟩ := ruled.yields .user
    cases stepped.symm.trans ran
    exact ⟨queue', kill, steps⟩
  · cases current : s.curTc with
    | none =>
      unfold threadHalt at stepped
      rw [current] at stepped
      cases stepped
    | some cur =>
      obtain ⟨s₁, queue', kill', ran, steps⟩ := ruled.halts current
      cases stepped.symm.trans ran
      exact ⟨queue', kill', steps⟩
  · rename_i addr _
    obtain ⟨heap', ran, noted⟩ := @wakeupLoop_ok _ _ addr _ _ ruled.kept.queued.chain
      ruled.kept.few
    rw [ran] at stepped
    cases stepped
    exact ⟨queue, kill, ruled.notes noted⟩
  · obtain ⟨cur, current, rfl⟩ := Option.map_eq_some_iff.mp stepped
    exact ⟨queue, kill, ruled.notes (noted_update _ _)⟩
  · obtain ⟨cur, current, stepped⟩ := Option.bind_eq_some_iff.mp stepped
    split at stepped
    · obtain ⟨s₁, queue', ran, steps⟩ := ruled.yields (.yielded _ _ _ _)
      cases stepped.symm.trans ran
      exact ⟨queue', kill, steps⟩
    · obtain rfl := Option.some.inj stepped
      exact ⟨queue, kill, ruled.notes (noted_update _ _)⟩
  · obtain rfl := Option.some.inj stepped
    exact ⟨queue, kill, ruled.notes fun _ => rfl⟩
  · cases stepped

theorem Initial.ruled (initial : s.Initial) : s.Ruled [] [] := by
  obtain ⟨maxTid, cur, queue, kill, rsp, rip, exited, created, cleaned, pushed, dispatched⟩ :=
    initial
  have none_all : s.all [] [] = [] := by simp [all, cur]
  refine ⟨?_, fun _ _ => rsp, fun stack used => ?_⟩
  · exact
      { queued := Queue.lists_nil.mpr (by rw [queue])
        killed := Queue.lists_nil.mpr (by rw [kill])
        one := Nat.zero_le 1
        nodup := by rw [none_all]; exact List.nodup_nil
        live := fun tc member => by rw [none_all] at member; cases member
        apart := fun tc member => by rw [none_all] at member; cases member
        own := fun tc member => by rw [none_all] at member; cases member
        running := fun c current => by rw [cur] at current; cases current
        saved := nofun
        conserved := by rw [none_all, created, cleaned]; exact .refl _
        distinct := by rw [created]; exact List.nodup_nil
        bounded := fun tid member => by rw [created] at member; cases member
        fifo := by rw [pushed, dispatched]; rfl }
  · rw [rsp] at used
    cases used

theorem Ruled.run {events : List ThreadEvent} (ruled : s.Ruled queue kill)
    (ran : run Threads.step s events = some s') :
    ∃ queue' kill', s'.Ruled queue' kill' ∧ s.Advances s' := by
  induction events generalizing s queue kill with
  | nil =>
    cases ran
    exact ⟨queue, kill, ruled, .refl⟩
  | cons event events ih =>
    obtain ⟨s₁, stepped, ran⟩ := Option.bind_eq_some_iff.mp ran
    obtain ⟨queue₁, kill₁, steps⟩ := ruled.step stepped
    obtain ⟨queue', kill', ruled', advances⟩ := ih steps.ruled ran
    exact ⟨queue', kill', ruled', steps.advances.dispatched.trans advances.dispatched,
      steps.advances.pushed.trans advances.pushed⟩

structure Queues (s : Threads) (queue kill : List Ptr) : Prop where
  queued : s.threadQueue.Lists (link s.heap) queue
  killed : s.killQueue.Lists (link s.heap) kill

/-- Every thread that has been created is in one place, once: it is the current one, on
`thread_queue`, alone on `kill_queue`, or has been cleaned. Threads run in the order in
which they stand on the queue, those that come later behind. A stack that is freed is not
in use, and nothing on the queue will go on on it. No function faults. -/
structure Conserved (s : Threads) : Prop where
  places : ∃ queue kill, s.Queues queue kill ∧ kill.length ≤ 1 ∧ (s.all queue kill).Nodup ∧
    s.created.Nodup ∧ s.created.Perm (tids s.heap (s.all queue kill) ++ s.cleaned)
  order : ∀ events s' queue kill queue' kill', Foundation.run Threads.step s events = some s' →
    s.Queues queue kill → s'.Queues queue' kill' → ∃ ran later,
      s'.dispatched = s.dispatched ++ ran ∧ ran ++ tids s'.heap queue' = tids s.heap queue ++ later
  freed : ∀ event s' queue kill, s.step event = some s' → s'.Queues queue kill →
    ∀ stack, s.live stack = true → s'.live stack = false → s.rsp ≠ some stack ∧
      s'.rsp ≠ some stack ∧ ∀ tc ∈ queue, (s'.heap tc).tcJb.jbRsp ≠ stack
  goesOn : s.exited = false → s.rip = .user → s.step .yield ≠ none ∧
    (∀ addr, s.step (.wakeup addr) ≠ none) ∧ (s.curTc ≠ none → s.step .halt ≠ none)

theorem Kept.queues_eq (kept : s.Kept queue kill) (queues : s.Queues queue' kill') :
    queue' = queue ∧ kill' = kill :=
  ⟨queues.queued.chain.functional kept.queued.chain,
    queues.killed.chain.functional kept.killed.chain⟩

theorem Ruled.conserved (ruled : s.Ruled queue kill) : s.Conserved where
  places := ⟨queue, kill, ⟨ruled.kept.queued, ruled.kept.killed⟩, ruled.kept.one,
    ruled.kept.nodup, ruled.kept.distinct, ruled.kept.conserved⟩
  order events s' queue₁ kill₁ queue₂ kill₂ ran queues queues' := by
    obtain ⟨queue', kill', ruled', advances⟩ := ruled.run ran
    obtain ⟨rfl, -⟩ := ruled.kept.queues_eq queues
    obtain ⟨rfl, -⟩ := ruled'.kept.queues_eq queues'
    obtain ⟨run, dispatched⟩ := advances.dispatched
    obtain ⟨later, pushed⟩ := advances.pushed
    refine ⟨run, later, dispatched.symm, ?_⟩
    have before := ruled.kept.fifo
    have after := ruled'.kept.fifo
    rw [← pushed, ← dispatched, before, List.append_assoc, List.append_assoc] at after
    exact (List.append_cancel_left after).symm
  freed event s' queue₁ kill₁ stepped queues stack live gone := by
    obtain ⟨queue', kill', steps⟩ := ruled.step stepped
    obtain ⟨rfl, rfl⟩ := steps.ruled.kept.queues_eq queues
    refine ⟨steps.freed stack live gone, fun used => ?_, fun tc member saved => ?_⟩
    · exact absurd ((steps.ruled.standing stack used).symm.trans gone) (by decide)
    · rw [steps.ruled.kept.saved tc member] at saved
      have known := (steps.ruled.kept.live tc
        (List.mem_append_right _ (List.mem_append_left _ member))).2
      rw [saved] at known
      exact absurd (known.symm.trans gone) (by decide)
  goesOn running user := by
    refine ⟨?_, fun addr => ?_, fun current => ?_⟩
    · obtain ⟨s', queue', ran, -⟩ := ruled.yields .user
      simp [Threads.step, running, user, ran]
    · obtain ⟨heap', ran, -⟩ := @wakeupLoop_ok _ _ addr _ _ ruled.kept.queued.chain ruled.kept.few
      simp [Threads.step, running, user, ran]
    · obtain ⟨cur, current⟩ := Option.ne_none_iff_exists'.mp current
      obtain ⟨s', queue', kill', ran, -⟩ := ruled.halts current
      simp [Threads.step, running, user, ran]

end Threads

/-- In every run from `thread_init` on, the threads are conserved. -/
theorem threads_conserved {s : Threads}
    (reached : Reachable Threads.Initial Threads.step (fun _ _ => True) s) : s.Conserved := by
  obtain ⟨start, events, initial, along⟩ := reached
  obtain ⟨queue, kill, ruled, -⟩ := initial.ruled.run along.run_eq
  exact ruled.conserved

def sampleThreads : Threads where
  heap _ := ⟨0, 0, ⟨0, .user⟩, 0, false, none⟩
  live _ := false
  maxTid := 0
  curTc := none
  threadQueue := ⟨none, none⟩
  killQueue := ⟨none, none⟩
  rsp := none
  rip := .user
  exited := false
  created := []
  cleaned := []
  pushed := []
  dispatched := []

/-- Three threads, of which one halts and is cleaned when the next one halts. -/
theorem sample_threads_conserved :
    ∃ s : Threads, s.Conserved ∧ s.created = [0, 1, 2] ∧ s.dispatched = [0, 1, 2, 0, 2] ∧
      s.cleaned = [1] := by
  have ends : ((run Threads.step sampleThreads
      [.create (some 8) (some 16), .create (some 24) (some 32), .create (some 40) (some 48), .yield,
        .wait 4 7 100 50, .poll 7, .halt, .yield, .time 60, .poll 8, .wakeup 4, .halt]).map
      fun s => (s.created, s.dispatched, s.cleaned)) =
        some ([0, 1, 2], [0, 1, 2, 0, 2], [1]) := by decide
  obtain ⟨s, ran, same⟩ := Option.map_eq_some_iff.mp ends
  obtain ⟨created, rest⟩ := Prod.mk.inj same
  obtain ⟨dispatched, cleaned⟩ := Prod.mk.inj rest
  have initial : sampleThreads.Initial := ⟨rfl, rfl, rfl, rfl, rfl, rfl, rfl, rfl, rfl, rfl, rfl⟩
  exact ⟨s, threads_conserved ⟨_, _, initial, .of_run ran⟩, created, dispatched, cleaned⟩

end Thread

end Jos
