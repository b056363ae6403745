import Jos.Foundation.Run
import Jos.Inc.Env
import Mathlib.Data.List.Nodup
import Mathlib.Data.List.Perm.Subperm

/-! The network server of net/serv.c: the loop of `serve` and the threads it creates, one
for each request. They take turns only where one of them calls `thread_yield` or waits in
lwIP; `ipc_recv` blocks them all. -/

set_option autoImplicit false

namespace Jos

open Foundation Function

namespace Ns

def queueSize : Nat := 20
def reqva : Nat := 0x0ffff000 - queueSize * pgSize

/-! The request codes of inc/ns.h. -/

def nsreqAccept : BitVec 32 := 1
def nsreqSocket : BitVec 32 := 9
def nsreqInput : BitVec 32 := 10
def nsreqTimer : BitVec 32 := 12

/-- `TIMER_INTERVAL` -/
def timerInterval : BitVec 32 := 250

/-- A message, as `ipc_recv` gives it to the server. -/
structure Message where
  reqno : BitVec 32
  whom : Nat
  perm : BitVec 32
deriving DecidableEq, Repr

/-- `perm & PTE_P` -/
def Message.paged (m : Message) : Bool := m.perm.getLsbD 0

structure StArgs where
  reqno : BitVec 32
  whom : Nat
  req : Nat
deriving DecidableEq, Repr

/-- Where the loop of `serve` stands. -/
inductive ServePoint where
  /-- It has yielded so many times to flush pending work. -/
  | top (i : Nat)
  | flushing (i : Nat)
  | receiving (va : Nat)
  /-- `process_timer` yields, and has read the time. -/
  | timer (va whom : Nat) (start : BitVec 32)
  /-- It lets the thread created run. -/
  | created
  | panicked
deriving DecidableEq, Repr

/-- The data of serv.c, the buffers that have a page, the threads that have been created
and have not finished, and the answers that have been sent. -/
structure Server where
  timerEnvid : Nat
  buse : Nat → Bool
  mapped : Nat → Bool
  place : ServePoint
  threads : List StArgs
  answers : List (Nat × BitVec 32)

namespace Server

/-- `serve` is called, with no request in progress. -/
def Started (s : Server) : Prop :=
  s.buse = (fun _ => false) ∧ s.threads = [] ∧ s.place = .top 0

/-- `get_buffer`, or its panic. -/
def getBuffer (s : Server) : Server :=
  match (List.range queueSize).find? fun i => !s.buse i with
  | none => { s with place := .panicked }
  | some i => { s with buse := update s.buse i true, place := .receiving (reqva + i * pgSize) }

def putBuffer (s : Server) (va : Nat) : Server :=
  { s with buse := update s.buse ((va - reqva) / pgSize) false }

/-- `ipc_send` without a page -/
def ipcSend (s : Server) (whom : Nat) (value : BitVec 32) : Server :=
  { s with answers := s.answers ++ [(whom, value)] }

/-- What `serve_thread` answers, with what lwIP returns. -/
def result (reqno lwip : BitVec 32) : BitVec 32 :=
  if nsreqAccept ≤ reqno ∧ reqno ≤ nsreqSocket then lwip
  else if reqno = nsreqInput then 0
  else BitVec.ofInt 32 (-eInval)

/-- `serve_thread`, once lwIP has returned. -/
def serveThread (s : Server) (args : StArgs) (lwip : BitVec 32) : Server :=
  let s := if args.reqno ≠ nsreqInput then s.ipcSend args.whom (result args.reqno lwip) else s
  let s := s.putBuffer args.req
  { s with mapped := update s.mapped args.req false }

/-- What `serve` does with a message, at a time, with what `malloc` and `thread_create`
do. A result of `thread_create` is not looked at. -/
def handle (s : Server) (va : Nat) (m : Message) (time : BitVec 32) (memory create : Bool) :
    Server :=
  let s := { s with mapped := update s.mapped va (s.mapped va || m.perm != 0) }
  if m.reqno = nsreqTimer then
    if m.whom ≠ s.timerEnvid then { s.putBuffer va with place := .top 0 }
    else { s with place := .timer va m.whom time }
  else if ¬ m.paged then { s with place := .top 0 }
  else if ¬ memory then { s with place := .panicked }
  else
    let args : StArgs := ⟨m.reqno, m.whom, va⟩
    { s with
      threads := if create then s.threads ++ [args] else s.threads
      place := .created }

end Server

inductive ServeEvent where
  /-- There are wakeups pending, and the loop yields. -/
  | flush
  /-- The loop takes a buffer and waits for a message. -/
  | take
  /-- It gets one. -/
  | recv (m : Message) (time : BitVec 32) (memory create : Bool)
  /-- `thread_yield` returns to the loop, at a time. -/
  | resume (now : BitVec 32)
  /-- lwIP returns to a thread, which finishes. -/
  | finish (i : Nat) (lwip : BitVec 32)
deriving DecidableEq, Repr

def ServePoint.yields : ServePoint → Bool
  | .flushing _ | .timer .. | .created => true
  | _ => false

def ServePoint.buffer : ServePoint → Option Nat
  | .receiving va | .timer va .. => some va
  | _ => none

/-- `none` says that the step is not taken here. -/
def Server.step (s : Server) : ServeEvent → Option Server
  | .flush =>
    match s.place with
    | .top i => if i < 32 then some { s with place := .flushing i } else none
    | _ => none
  | .take =>
    match s.place with
    | .top _ => some s.getBuffer
    | _ => none
  | .recv m time memory create =>
    match s.place with
    | .receiving va => some (s.handle va m time memory create)
    | _ => none
  | .resume now =>
    match s.place with
    | .flushing i => some { s with place := .top (i + 1) }
    | .timer va whom start =>
      let s := (s.ipcSend whom (timerInterval - (now - start))).putBuffer va
      some { s with place := .top 0 }
    | .created => some { s with place := .top 0 }
    | _ => none
  | .finish i lwip =>
    if s.place.yields then
      s.threads[i]?.map fun args =>
        { s.serveThread args lwip with threads := s.threads.eraseIdx i }
    else none

/-- A message comes from the timer or has a page, there is memory for its thread, and
fewer requests are in progress than there are buffers. -/
def Answerable (s : Server) : ServeEvent → Prop
  | .take => s.threads.length < queueSize
  | .recv m _ memory create =>
    m.reqno = nsreqTimer ∨ (m.paged = true ∧ memory = true ∧ create = true)
  | _ => True

instance (s : Server) (event : ServeEvent) : Decidable (Answerable s event) := by
  unfold Answerable
  cases event <;> infer_instance

namespace Server

/-- The buffers of the requests in progress and the one that is received into. -/
def buffers (s : Server) : List Nat := s.threads.map StArgs.req ++ s.place.buffer.toList

/-- The buffers marked are those in use, each by one request, the pages of the requests are
there, and the server has not panicked. -/
structure Kept (s : Server) : Prop where
  marked : ∀ i < queueSize, s.buse i = true ↔ reqva + i * pgSize ∈ s.buffers
  own : s.buffers.Nodup
  inside : ∀ va ∈ s.buffers, ∃ i < queueSize, va = reqva + i * pgSize
  mapped : ∀ args ∈ s.threads, s.mapped args.req = true
  running : s.place ≠ .panicked

variable {s s' : Server} {va i j : Nat} {args : StArgs} {event : ServeEvent} {m : Message}
  {time lwip : BitVec 32} {memory create : Bool}

theorem buffer_injective (same : reqva + i * pgSize = reqva + j * pgSize) : i = j :=
  Nat.eq_of_mul_eq_mul_right (by decide) (Nat.add_left_cancel same)

theorem putBuffer_buse :
    (s.putBuffer (reqva + i * pgSize)).buse = update s.buse i false := by
  unfold putBuffer
  rw [Nat.add_sub_cancel_left, Nat.mul_div_cancel i (by decide)]

theorem Started.kept (started : s.Started) : s.Kept := by
  obtain ⟨buse, threads, place⟩ := started
  have none_used : s.buffers = [] := by
    unfold buffers
    rw [threads, place]
    rfl
  refine ⟨fun i _ => ?_, ?_, ?_, ?_, ?_⟩
  · rw [buse, none_used]
    simp
  · rw [none_used]
    exact List.nodup_nil
  · rw [none_used]
    simp
  · rw [threads]
    simp
  · rw [place]
    exact ServePoint.noConfusion

section

variable (kept : s.Kept)

include kept

theorem Kept.getBuffer (i : Nat) (place : s.place = .top i)
    (few : s.threads.length < queueSize) : s.getBuffer.Kept := by
  have used : s.buffers = s.threads.map StArgs.req := by
    unfold buffers
    rw [place]
    exact List.append_nil _
  unfold Server.getBuffer
  cases found : (List.range queueSize).find? fun i => !s.buse i with
  | none =>
    have all : (List.range queueSize).map (fun i => reqva + i * pgSize) ⊆ s.buffers := by
      intro va member
      obtain ⟨i, below, rfl⟩ := List.mem_map.mp member
      have taken := List.find?_eq_none.mp found i below
      exact (kept.marked i (List.mem_range.mp below)).mp (by simpa using taken)
    have nodup : ((List.range queueSize).map fun i => reqva + i * pgSize).Nodup :=
      List.Nodup.map (fun _ _ => buffer_injective) List.nodup_range
    have enough := (nodup.subperm all).length_le
    rw [List.length_map, List.length_range, used, List.length_map] at enough
    exact absurd few (Nat.not_lt_of_le enough)
  | some j =>
    have below : j < queueSize := List.mem_range.mp (List.mem_of_find?_eq_some found)
    have free : s.buse j = false := by simpa using List.find?_some found
    have fresh : reqva + j * pgSize ∉ s.buffers := by
      rw [← kept.marked j below, free]
      exact Bool.false_ne_true
    have now : buffers { s with
        buse := update s.buse j true
        place := .receiving (reqva + j * pgSize) } = s.buffers ++ [reqva + j * pgSize] := by
      rw [used]
      rfl
    refine ⟨fun k inside => ?_, ?_, ?_, kept.mapped, ServePoint.noConfusion⟩
    · rw [now, List.mem_append, List.mem_singleton, ← kept.marked k inside]
      by_cases same : k = j
      · simp [same]
      · simp only [update_of_ne same]
        exact ⟨.inl, fun either => either.resolve_right fun eq => same (buffer_injective eq)⟩
    · rw [now]
      exact List.nodup_append.mpr ⟨kept.own, List.nodup_singleton _, fun a old b new eq =>
        fresh (List.mem_singleton.mp new ▸ eq ▸ old)⟩
    · rw [now]
      intro va member
      rcases List.mem_append.mp member with old | new
      · exact kept.inside va old
      · exact ⟨j, below, List.mem_singleton.mp new⟩

theorem Kept.hand_over (buffers : s'.buffers = s.buffers) (buse : s'.buse = s.buse)
    (mapped : ∀ args ∈ s'.threads, s'.mapped args.req = true) (running : s'.place ≠ .panicked) :
    s'.Kept where
  marked i below := by
    rw [buse, buffers]
    exact kept.marked i below
  own := buffers ▸ kept.own
  inside := buffers ▸ kept.inside
  mapped := mapped
  running := running

theorem Kept.give_back (buffers : s.buffers.Perm (va :: s'.buffers))
    (buse : s'.buse = (s.putBuffer va).buse)
    (mapped : ∀ args ∈ s'.threads, s'.mapped args.req = true) (running : s'.place ≠ .panicked) :
    s'.Kept := by
  obtain ⟨j, below, rfl⟩ := kept.inside va (buffers.mem_iff.mpr List.mem_cons_self)
  have own := buffers.nodup_iff.mp kept.own
  refine ⟨fun i inside => ?_, own.of_cons, fun va member => kept.inside va
    (buffers.mem_iff.mpr (List.mem_cons_of_mem _ member)), mapped, running⟩
  rw [buse, putBuffer_buse]
  by_cases same : i = j
  · subst same
    rw [update_self]
    exact ⟨fun taken => absurd taken Bool.false_ne_true,
      fun member => absurd member (List.nodup_cons.mp own).1⟩
  · rw [update_of_ne same, kept.marked i inside, buffers.mem_iff, List.mem_cons]
    exact ⟨fun either => either.resolve_left fun eq => same (buffer_injective eq), .inr⟩

theorem Kept.recv (place : s.place = .receiving va)
    (answerable : Answerable s (.recv m time memory create)) :
    (s.handle va m time memory create).Kept := by
  have used : s.buffers = s.threads.map StArgs.req ++ [va] := by
    unfold buffers
    rw [place]
    rfl
  have pages {args : StArgs} (member : args ∈ s.threads) :
      update s.mapped va (s.mapped va || m.perm != 0) args.req = true := by
    by_cases here : args.req = va
    · rw [here, update_self, ← here, kept.mapped args member]
      rfl
    · rw [update_of_ne here, kept.mapped args member]
  unfold handle
  by_cases timer : m.reqno = nsreqTimer
  · by_cases whom : m.whom ≠ s.timerEnvid
    · simp only [if_pos timer, if_pos whom]
      refine kept.give_back ?_ rfl (fun _ => pages) ServePoint.noConfusion
      rw [used]
      exact (List.perm_append_singleton va _).trans (.cons va (.of_eq (List.append_nil _).symm))
    · simp only [if_pos timer, if_neg whom]
      exact kept.hand_over (by rw [used]; rfl) rfl (fun _ => pages) ServePoint.noConfusion
  · obtain ⟨paged, rfl, rfl⟩ := answerable.resolve_left timer
    simp only [if_neg timer, paged, not_true_eq_false, if_false, if_true]
    refine kept.hand_over ?_ rfl (fun args member => ?_) ServePoint.noConfusion
    · rw [used]
      change (s.threads ++ [_]).map StArgs.req ++ [] = _
      rw [List.append_nil, List.map_append]
      rfl
    · rcases List.mem_append.mp member with old | new
      · exact pages old
      · obtain rfl := List.mem_singleton.mp new
        have sent : (m.perm != 0) = true := by
          rw [bne_iff_ne]
          intro zero
          rw [Message.paged, zero] at paged
          exact Bool.false_ne_true paged
        change update s.mapped va _ va = true
        rw [update_self, sent, Bool.or_true]

theorem Kept.finish (there : s.threads[i]? = some args) :
    Kept { s.serveThread args lwip with threads := s.threads.eraseIdx i } := by
  obtain ⟨inside, rfl⟩ := List.getElem?_eq_some_iff.mp there
  have split : s.buffers.Perm (s.threads[i].req :: ((s.threads.eraseIdx i).map StArgs.req ++
      s.place.buffer.toList)) := by
    have erased := ((List.getElem_cons_eraseIdx_perm inside).map StArgs.req).symm
    exact erased.append_right _
  have apart : ∀ args ∈ s.threads.eraseIdx i, args.req ≠ s.threads[i].req := by
    intro args member same
    have fresh := (List.nodup_cons.mp (split.nodup_iff.mp kept.own)).1
    exact fresh (List.mem_append_left _ (List.mem_map.mpr ⟨args, member, same⟩))
  have mapped : ∀ args ∈ s.threads.eraseIdx i,
      update s.mapped s.threads[i].req false args.req = true := fun args member => by
    rw [update_of_ne (apart args member), kept.mapped args (List.mem_of_mem_eraseIdx member)]
  unfold serveThread
  by_cases input : s.threads[i].reqno ≠ nsreqInput
  · simp only [if_pos input]
    exact kept.give_back split rfl mapped kept.running
  · simp only [if_neg input]
    exact kept.give_back split rfl mapped kept.running

theorem Kept.step (answerable : Answerable s event)
    (stepped : s.step event = some s') : s'.Kept := by
  cases event with
  | flush =>
    unfold Server.step at stepped
    cases place : s.place with
    | top i =>
      simp only [place] at stepped
      obtain ⟨-, same⟩ := Option.ite_none_right_eq_some.mp stepped
      cases same
      refine kept.hand_over ?_ rfl kept.mapped ServePoint.noConfusion
      unfold buffers
      rw [place]
      rfl
    | _ => simp [place] at stepped
  | take =>
    unfold Server.step at stepped
    cases place : s.place with
    | top i =>
      simp only [place, Option.some.injEq] at stepped
      exact stepped ▸ kept.getBuffer i place answerable
    | _ => simp [place] at stepped
  | recv m time memory create =>
    unfold Server.step at stepped
    cases place : s.place with
    | receiving va =>
      simp only [place, Option.some.injEq] at stepped
      exact stepped ▸ kept.recv place answerable
    | _ => simp [place] at stepped
  | resume now =>
    unfold Server.step at stepped
    cases place : s.place with
    | flushing i =>
      simp only [place, Option.some.injEq] at stepped
      subst stepped
      refine kept.hand_over ?_ rfl kept.mapped ServePoint.noConfusion
      unfold buffers
      rw [place]
      rfl
    | timer va whom start =>
      simp only [place, Option.some.injEq] at stepped
      subst stepped
      refine kept.give_back ?_ rfl kept.mapped ServePoint.noConfusion
      unfold buffers
      rw [place]
      exact (List.perm_append_singleton va _).trans
        (.cons va (.of_eq (List.append_nil _).symm))
    | created =>
      simp only [place, Option.some.injEq] at stepped
      subst stepped
      refine kept.hand_over ?_ rfl kept.mapped ServePoint.noConfusion
      unfold buffers
      rw [place]
      rfl
    | _ => simp [place] at stepped
  | finish i lwip =>
    unfold Server.step at stepped
    obtain ⟨-, stepped⟩ := Option.ite_none_right_eq_some.mp stepped
    obtain ⟨args, there, rfl⟩ := Option.map_eq_some_iff.mp stepped
    exact kept.finish there

end

end Server

def sampleServer : Server where
  timerEnvid := 0x1002
  buse := fun _ => false
  mapped := fun _ => false
  place := .top 0
  threads := []
  answers := []

theorem sampleServer_started : sampleServer.Started := ⟨rfl, rfl, rfl⟩

def request (reqno : BitVec 32) (whom : Nat) : ServeEvent := .recv ⟨reqno, whom, 7⟩ 0 true true

/-- Two requests are in progress, and the second is answered while a third is awaited. -/
def sampleRequests : List ServeEvent :=
  [.take, request nsreqAccept 0x1005, .resume 0, .take, request nsreqSocket 0x1006, .finish 1 3,
    .resume 0, .flush, .resume 0, .take, .recv ⟨nsreqTimer, 0x1002, 0⟩ 10 true true, .resume 20,
    .take]

def invalidRequest : List ServeEvent := [.take, .recv ⟨nsreqAccept, 0x1005, 0⟩ 0 true true]

end Ns

end Jos
