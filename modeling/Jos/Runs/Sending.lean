import Jos.Runs.Transfer

/-! `ipc_send` of lib/ipc.c among the events of the other environments, and what
its return tells about the message. -/

set_option autoImplicit false

namespace Jos

open Foundation

variable {npages : Nat} {platform : Platform npages} {c dst : EnvIdx}

/-- The arguments of `ipc_send`. -/
structure IpcSend where
  toEnv : EnvId
  val : BitVec 32
  pg : Nat
  perm : BitVec 32

/-- `if(!pg) pg = (void*)UTOP;` -/
def IpcSend.srcva (m : IpcSend) : Nat := if m.pg = 0 then utop else m.pg

def IpcSend.trySend (m : IpcSend) : Syscall := .ipcTrySend m.toEnv m.val m.srcva m.perm

inductive SendLoop where
  | trying
  | yielding
  | returned (result : Int)
deriving DecidableEq

/-- One `sys_ipc_try_send` of the loop. -/
structure Try (npages : Nat) where
  before : Tracked npages
  result : Int
  after : Kernel npages

/-- The system while the environment `caller` is in `ipc_send`, with the tries that
it has made, the last one first. -/
structure Sender (npages : Nat) where
  system : Tracked npages
  caller : EnvId
  pc : SendLoop
  tries : List (Try npages)

inductive SenderEvent where
  | own (ambient : Ambient)
  | other (event : KernelEvent)

def SendLoop.call (m : IpcSend) : SendLoop → Syscall
  | .trying => m.trySend
  | _ => .yield

def SenderEvent.kernelEvent (c : EnvIdx) (m : IpcSend) (pc : SendLoop) :
    SenderEvent → KernelEvent
  | .own ambient => .call c ambient (pc.call m)
  | .other event => event

/-- The calls of the slot `c` are those that `ipc_send` makes. -/
def KernelEvent.calledBy (c : EnvIdx) : KernelEvent → Bool
  | .call e _ _ => e = c
  | _ => false

/-- `do { result = sys_ipc_try_send(..); if(-E_IPC_NOT_RECV == result) sys_yield(); }
while(-E_IPC_NOT_RECV == result);` -/
def Sender.advance (s : Sender npages) (outcome : Outcome) (system : Tracked npages) :
    Option (Sender npages) :=
  match s.pc, outcome with
  | .trying, .returns result =>
    some { s with
      system
      pc := if result = -eIpcNotRecv then .yielding else .returned result
      tries := ⟨s.system, result, system.kernel⟩ :: s.tries }
  | .yielding, .yields => some { s with system, pc := .trying }
  | _, _ => none

def senderStep (c : EnvIdx) (m : IpcSend) (s : Sender npages) :
    SenderEvent → Option (Sender npages)
  | .own ambient =>
    if (s.system.kernel.envs c).envId ≠ s.caller then none
    else do
      let system ← trackedStep s.system (.call c ambient (s.pc.call m))
      let (outcome, _) ← syscall s.system.kernel c ambient (s.pc.call m)
      s.advance outcome system
  | .other event =>
    if event.calledBy c then none
    else (trackedStep s.system event).map fun system => { s with system }

/-- The states that a call of `ipc_send` passes through, from any state of an
orderly run in which the environment `c` makes it. -/
def Sending (platform : Platform npages) (c : EnvIdx) (m : IpcSend) : Sender npages → Prop :=
  Reachable
    (fun s => TrackedReached platform s.system ∧ s.caller = (s.system.kernel.envs c).envId ∧
      s.pc = .trying ∧ s.tries = [])
    (senderStep c m)
    fun s event => Orderly s.system.kernel (event.kernelEvent c m s.pc)

section
variable (c : EnvIdx) (m : IpcSend)

def Try.Sends (caller : EnvId) (t : Try npages) (dst : EnvIdx) : Prop :=
  envid2env t.before.kernel c m.toEnv false = some dst ∧
    (t.before.kernel.envs dst).envIpcRecving = true ∧ (t.after.envs dst).envIpcRecving = false ∧
    (t.after.envs dst).envIpcFrom = caller ∧ (t.after.envs dst).envIpcValue = m.val

/-- The page has come with the message, if one was sent and asked for. -/
def Try.Carries (t : Try npages) (dst : EnvIdx) : Prop :=
  m.pg ≠ 0 → t.before.asked dst < utop →
    t.before.kernel.Delivered t.after c m.pg dst (t.before.asked dst) (m.perm ||| pteP.setWidth 32)

/-- Exactly one of the tries has sent the message, and the page with it. -/
def Sender.SentOnce (s : Sender npages) : Prop :=
  ∃ later t earlier dst, s.tries = later ++ t :: earlier ∧ t.Sends c m s.caller dst ∧
    t.Carries c m dst ∧ ∀ other ∈ later ++ earlier, ∀ e, ¬ other.Sends c m s.caller e

/-- The page of the sender, if it sends one, is one that `sys_ipc_try_send` accepts. -/
def Kernel.Sendable (k : Kernel npages) (srcva : Nat) (sent : BitVec 32) : Prop :=
  srcva < utop → srcva % pgSize = 0 ∧ ∃ source, k.view c srcva = some source ∧
    source.ptePerm &&& (pteU ||| pteP) = pteU ||| pteP ∧
    (sent &&& pteW.setWidth 32 ≠ 0 → source.ptePerm &&& pteW ≠ 0)

/-- The page can be inserted where the receiver asked for it, or is there already. -/
def Kernel.Fits (k : Kernel npages) (srcva : Nat) (dst : EnvIdx) (asked : Nat)
    (sent : BitVec 32) : Prop :=
  srcva < utop ∧ Deliverable k c dst sent ∧ k.RoomFor dst asked ∨
    k.Delivered k c srcva dst asked sent

/-- The target exists, the page may be sent, and it fits if the target asked for
one. -/
def Tracked.Accepts (s : Tracked npages) : Prop :=
  ∃ dst, envid2env s.kernel c m.toEnv false = some dst ∧
    s.kernel.Sendable c m.srcva (m.perm ||| pteP.setWidth 32) ∧
    (m.pg ≠ 0 → s.asked dst < utop →
      s.kernel.Fits c m.pg dst (s.asked dst) (m.perm ||| pteP.setWidth 32))

end

structure Try.Made (platform : Platform npages) (c : EnvIdx) (m : IpcSend) (caller : EnvId)
    (t : Try npages) : Prop where
  reached : TrackedReached platform t.before
  live : t.before.kernel.Live c
  caller : (t.before.kernel.envs c).envId = caller
  orderly : OrderlyCall t.before.kernel c m.trySend
  ran : ∃ ambient, syscall t.before.kernel c ambient m.trySend =
    some (.returns t.result, t.after)

section
variable {m : IpcSend} {caller : EnvId} {t : Try npages}

theorem Try.Sends.result (made : t.Made platform c m caller) (sends : t.Sends c m caller dst) :
    t.result = 0 := by
  obtain ⟨ambient, ran⟩ := made.ran
  obtain ⟨-, waiting, served, -⟩ := sends
  have effect := syscall_effect ran
  generalize returned : Outcome.returns t.result = outcome at effect
  unfold IpcSend.trySend at effect
  cases effect with
  | memory same =>
    rw [same] at served
    exact absurd (waiting.symm.trans served) (by decide)
  | send => exact Outcome.returns.inj returned
  | denied => cases returned

/-- A try that returns 0 has stored the message, and with it the permission of the page. -/
theorem Try.Made.delivered (made : t.Made platform c m caller) (zero : t.result = 0) :
    ∃ dst, envid2env t.before.kernel c m.toEnv false = some dst ∧
      (t.before.kernel.envs dst).envIpcRecving = true ∧
      t.after.envs dst = deliveredEnv (t.before.kernel.envs dst) caller m.val
        (if SendsPage t.before.kernel dst m.srcva then some (m.perm ||| pteP.setWidth 32)
          else none) := by
  obtain ⟨ambient, ran⟩ := made.ran
  have effect := syscall_effect ran
  rw [zero] at effect
  generalize returned : Outcome.returns 0 = outcome at effect
  unfold IpcSend.trySend at effect
  cases effect with
  | memory _ negative =>
    obtain rfl := Outcome.returns.inj returned
    exact absurd (negative rfl) (lt_irrefl 0)
  | @send _ _ _ _ dst _ found waiting _ same =>
    refine ⟨dst, found, waiting, ?_⟩
    rw [same, setEnv_apply, if_pos rfl, made.caller]
  | denied => cases returned

theorem Try.Made.sends (made : t.Made platform c m caller) (zero : t.result = 0) :
    ∃ dst, t.Sends c m caller dst := by
  obtain ⟨dst, found, waiting, here⟩ := made.delivered zero
  refine ⟨dst, found, waiting, ?_, ?_, ?_⟩
  · rw [here]
    rfl
  · rw [here]
    rfl
  · rw [here]
    rfl

end

section
variable {managed : Set (Fin npages)} {k k' : Kernel npages} {g : Ledger npages}
  {envid : EnvId} {value sent perm : BitVec 32} {srcva : Nat} {ambient : Ambient} {result : Int}

theorem user_syscall {perm : BitVec 12} :
    perm &&& pteSyscall &&& (pteU ||| pteP) = perm &&& (pteU ||| pteP) := by
  have kept : pteSyscall &&& (pteU ||| pteP) = pteU ||| pteP := by decide
  rw [BitVec.and_assoc, kept]

theorem write_syscall {perm : BitVec 12} : perm &&& pteSyscall &&& pteW = perm &&& pteW := by
  have kept : pteSyscall &&& pteW = pteW := by decide
  rw [BitVec.and_assoc, kept]

/-- A send to an environment that waits returns 0 exactly when its page is accepted. -/
theorem Sound.sysIpcTrySend_zero_iff (sound : Sound managed k g) (live : k.Live c)
    (found : envid2env k c envid false = some dst) (waiting : (k.envs dst).envIpcRecving = true)
    (ran : Jos.sysIpcTrySend k c envid value srcva perm ambient = some (result, k')) :
    result = 0 ↔ k.Sendable c srcva (perm ||| pteP.setWidth 32) := by
  obtain ⟨root, rooted⟩ := live.root
  unfold Jos.sysIpcTrySend at ran
  simp only [found, waiting, not_true_eq_false, if_false, rooted] at ran
  obtain ⟨⟨looked, m⟩, lookup, ran⟩ := Option.bind_eq_some_iff.mp ran
  have refused {code : Int} {k₁ : Kernel npages} (negative : code < 0)
      (same : some (code, k₁) = some (result, k')) : result ≠ 0 := by
    cases same
    exact negative.ne
  by_cases low : srcva < utop
  · have view : k.view c srcva = leafTranslation (leafOf k g c srcva) :=
      sound.translateIn live (Place.user_of_low low)
    rcases lookup_mapped sound rooted low.le lookup with
      ⟨rfl, absent, g', spec⟩ | ⟨page, holder, rfl, rfl, zero, here, leaf, maps⟩
    · rw [if_pos ⟨rfl, low⟩] at ran
      refine iff_of_false (refused (by decide) ran) fun sendable => ?_
      obtain ⟨-, source, seen, -⟩ := sendable low
      rw [view, leafTranslation, absent] at seen
      cases seen
    · rw [if_neg (by simp)] at ran
      simp only [Option.bind_eq_bind, Option.bind_some] at ran
      have entry : k.pmap.entry (holder, ptx srcva) = leafOf k g c srcva := leaf.symm
      have seen : k.view c srcva = some ⟨(leafOf k g c srcva).ppn, tablePerm, tablePerm, tablePerm,
          (leafOf k g c srcva).perm⟩ := by
        rw [view, leafTranslation, if_pos (by rw [leaf]; exact maps.present)]
      rw [entry, user_syscall, write_syscall] at ran
      split at ran
      · rename_i unfit
        refine iff_of_false (refused (by decide) ran) fun sendable => ?_
        obtain ⟨aligned, source, seen', user, -⟩ := sendable low
        cases seen.symm.trans seen'
        exact unfit.2.elim (fun odd => odd aligned) fun lacks => lacks user
      · rename_i fit
        split at ran
        · rename_i unwritable
          refine iff_of_false (refused (by decide) ran) fun sendable => ?_
          obtain ⟨-, source, seen', -, writes⟩ := sendable low
          cases seen.symm.trans seen'
          exact writes unwritable.2.1 unwritable.2.2
        · rename_i writable
          split at ran
          · cases ran
          · refine iff_of_true (ipcDeliver_eq ran).1 fun _ => ⟨?_, _, seen, ?_, ?_⟩
            · exact by_contra fun odd => fit ⟨low, .inl odd⟩
            · exact by_contra fun lacks => fit ⟨low, .inr lacks⟩
            · exact fun asked lacks => writable ⟨low, asked, lacks⟩
  · rw [if_neg fun both => low both.2] at ran
    obtain ⟨pte, -, ran⟩ := Option.bind_eq_some_iff.mp ran
    rw [if_neg fun both => low both.1, if_neg fun both => low both.1] at ran
    split at ran
    · cases ran
    · exact iff_of_true (ipcDeliver_eq ran).1 fun page => absurd page low

/-- A send from above `UTOP` leaves what the receiver maps. -/
theorem SendEnd.view_high (ended : SendEnd managed k g k' c envid value srcva sent 0)
    (sound : Sound managed k g) (high : ¬ srcva < utop) {e : EnvIdx} {va : Nat} (low : va < utop) :
    k'.view e va = k.view e va := by
  generalize zero : (0 : Int) = result at ended
  cases ended with
  | rejected negative => exact absurd negative (by omega)
  | notMapped => cases zero
  | plain _ _ _ same looked =>
    subst same
    refine (Kernel.view_setEnv ?_).trans (looked.view sound low)
    rfl
  | refused _ _ page => exact absurd page.1 high
  | noTable _ _ page => exact absurd page.1 high
  | done _ _ page => exact absurd page.1 high

end

section
variable {m : IpcSend} {caller : EnvId} {t : Try npages}

section

variable (made : t.Made platform c m caller)

include made

theorem Try.Made.tried : ∃ ambient,
    Jos.sysIpcTrySend t.before.kernel c m.toEnv m.val m.srcva m.perm ambient =
      some (t.result, t.after) := by
  obtain ⟨ambient, ran⟩ := made.ran
  obtain ⟨⟨result, after⟩, tried, equal⟩ := Option.map_eq_some_iff.mp ran
  obtain ⟨same, rfl⟩ := Prod.mk.inj equal
  obtain rfl := Outcome.returns.inj same
  exact ⟨ambient, tried⟩

theorem Try.Made.stored (sends : t.Sends c m caller dst)
    (page : SendsPage t.before.kernel dst m.srcva) :
    (t.after.envs dst).envIpcPerm = m.perm ||| pteP.setWidth 32 := by
  obtain ⟨other, found, -, here⟩ := made.delivered (sends.result made)
  cases found.symm.trans sends.1
  rw [here, if_pos page]
  rfl

theorem Try.Made.carries_iff (sends : t.Sends c m caller dst) : t.Carries c m dst ↔
      (m.pg ≠ 0 → t.before.asked dst < utop →
        t.before.kernel.Fits c m.pg dst (t.before.asked dst) (m.perm ||| pteP.setWidth 32)) := by
  refine forall_congr' fun page => forall_congr' fun asked => ?_
  have zero := sends.result made
  have source : m.srcva = m.pg := if_neg page
  have found := sends.1
  have waiting := sends.2.1
  obtain ⟨⟨g, sound⟩, asks⟩ := made.reached.sound
  by_cases low : m.pg < utop
  · obtain ⟨ambient, ran⟩ := made.ran
    rw [zero] at ran
    have transfers := transfers_iff made.reached made.live made.orderly found ran
    rw [source, Kernel.Transfers, Kernel.Transferable, if_pos ⟨low, asked⟩, if_pos ⟨low, asked⟩]
      at transfers
    have stored := made.stored sends
      ⟨source ▸ low, by rw [asks dst waiting asked]; exact asked⟩
    rw [and_iff_left stored] at transfers
    rw [transfers, Kernel.Fits, and_iff_right low]
  · obtain ⟨ambient, tried⟩ := made.tried
    rw [zero] at tried
    have ended := sound.sysIpcTrySend made.live made.orderly tried
    have view := ended.view_high sound (source ▸ low) (e := dst) asked
    unfold Kernel.Delivered Kernel.Fits
    rw [view]
    exact ⟨.inr, fun fits => fits.resolve_left fun inserted => low inserted.1⟩

theorem Try.Made.accepts_iff (ended : t.result ≠ -eIpcNotRecv) :
    (∃ dst, t.Sends c m caller dst ∧ t.Carries c m dst) ↔ t.before.Accepts c m := by
  obtain ⟨⟨g, sound⟩, -⟩ := made.reached.sound
  obtain ⟨ambient, tried⟩ := made.tried
  constructor
  · rintro ⟨dst, sends, carries⟩
    refine ⟨dst, sends.1, ?_, (made.carries_iff sends).mp carries⟩
    exact (sound.sysIpcTrySend_zero_iff made.live sends.1 sends.2.1 tried).mp (sends.result made)
  · rintro ⟨dst, found, sendable, fits⟩
    have waiting : (t.before.kernel.envs dst).envIpcRecving = true := by
      by_contra idle
      unfold Jos.sysIpcTrySend at tried
      simp only [found, idle, not_false_eq_true, if_true, Option.some.injEq, Prod.mk.injEq] at tried
      exact ended tried.1.symm
    have zero := (sound.sysIpcTrySend_zero_iff made.live found waiting tried).mpr sendable
    obtain ⟨other, sends⟩ := made.sends zero
    cases found.symm.trans sends.1
    exact ⟨dst, sends, (made.carries_iff sends).mpr fits⟩

end

end

structure Sender.Retries (platform : Platform npages) (c : EnvIdx) (m : IpcSend)
    (s : Sender npages) : Prop where
  reached : TrackedReached platform s.system
  made : ∀ t ∈ s.tries, t.Made platform c m s.caller
  going : (∀ result, s.pc ≠ .returned result) → ∀ t ∈ s.tries, t.result = -eIpcNotRecv
  ended : ∀ result, s.pc = .returned result → ∃ last earlier, s.tries = last :: earlier ∧
    last.result = result ∧ result ≠ -eIpcNotRecv ∧ ∀ t ∈ earlier, t.result = -eIpcNotRecv

theorem TrackedReached.step {s s' : Tracked npages} {event : KernelEvent}
    (reached : TrackedReached platform s) (orderly : Orderly s.kernel event)
    (ran : trackedStep s event = some s') : TrackedReached platform s' := by
  obtain ⟨start, events, booted, along⟩ := reached
  exact ⟨start, _, booted, along.snoc orderly ran⟩

theorem trackedStep_call {s s' : Tracked npages} {ambient : Ambient} {call : Syscall}
    (ran : trackedStep s (.call c ambient call) = some s') :
    s.kernel.Live c ∧ ∃ outcome, syscall s.kernel c ambient call = some (outcome, s'.kernel) := by
  obtain ⟨k', stepped, rfl⟩ := Option.map_eq_some_iff.mp ran
  obtain ⟨live, outcome, called⟩ := kernelStep_call stepped
  exact ⟨live, outcome, called⟩

theorem Sender.Retries.step {m : IpcSend} {s s' : Sender npages} {event : SenderEvent}
    (retries : s.Retries platform c m)
    (orderly : Orderly s.system.kernel (event.kernelEvent c m s.pc))
    (ran : senderStep c m s event = some s') : s'.Retries platform c m := by
  cases event with
  | other event =>
    simp only [senderStep] at ran
    split at ran
    · cases ran
    · obtain ⟨system, stepped, rfl⟩ := Option.map_eq_some_iff.mp ran
      exact { retries with reached := retries.reached.step orderly stepped }
  | own ambient =>
    simp only [senderStep] at ran
    split at ran
    · cases ran
    rename_i same
    obtain ⟨system, stepped, ran⟩ := Option.bind_eq_some_iff.mp ran
    obtain ⟨⟨outcome, k⟩, called, ran⟩ := Option.bind_eq_some_iff.mp ran
    have reached := retries.reached.step orderly stepped
    obtain ⟨live, outcome', called'⟩ := trackedStep_call stepped
    cases called.symm.trans called'
    cases pc : s.pc with
    | returned result => simp [Sender.advance, pc] at ran
    | yielding =>
      cases outcome with
      | yields =>
        simp only [Sender.advance, pc, Option.some.injEq] at ran
        subst ran
        have going := retries.going (by simp [pc])
        exact ⟨reached, retries.made, fun _ => going, nofun⟩
      | returns value => simp [Sender.advance, pc] at ran
      | exits => simp [Sender.advance, pc] at ran
    | trying =>
      cases outcome with
      | yields => simp [Sender.advance, pc] at ran
      | exits => simp [Sender.advance, pc] at ran
      | returns value =>
        simp only [Sender.advance, pc, Option.some.injEq] at ran
        subst ran
        rw [pc] at called' orderly
        have going := retries.going (by simp [pc])
        have made : Try.Made platform c m s.caller ⟨s.system, value, system.kernel⟩ :=
          ⟨retries.reached, live, not_not.mp same, orderly, ambient, called'⟩
        refine ⟨reached, List.forall_mem_cons.mpr ⟨made, retries.made⟩, ?_, ?_⟩
        · intro unfinished
          refine List.forall_mem_cons.mpr ⟨?_, going⟩
          by_contra other
          exact unfinished value (if_neg other)
        · intro result finished
          by_cases retry : value = -eIpcNotRecv
          · cases (if_pos retry).symm.trans finished
          · obtain rfl := SendLoop.returned.inj ((if_neg retry).symm.trans finished)
            exact ⟨_, _, rfl, rfl, retry, going⟩

theorem Sending.retries {m : IpcSend} {s : Sender npages} (sending : Sending platform c m s) :
    s.Retries platform c m := by
  refine Reachable.invariant sending (fun s => s.Retries platform c m) ?_
    fun before event after retries orderly ran => retries.step orderly ran
  rintro start ⟨reached, -, pc, none⟩
  refine ⟨reached, ?_, ?_, ?_⟩
  · rw [none]
    nofun
  · rw [none]
    nofun
  · rw [pc]
    nofun

/-- `ipc_send` returns without an error, its message sent once, exactly when the
last `sys_ipc_try_send` starts from a state that accepts it. -/
theorem ipcSend_sent_iff {m : IpcSend} {s : Sender npages} {result : Int}
    (sending : Sending platform c m s) (returned : s.pc = .returned result) :
    ¬ result < 0 ∧ s.SentOnce c m ↔ ∃ last ∈ s.tries.head?, last.before.Accepts c m := by
  have retries := sending.retries
  obtain ⟨last, earlier, tries, rfl, final, retried⟩ := retries.ended result returned
  have made := retries.made
  rw [tries] at made
  obtain ⟨made, before⟩ := List.forall_mem_cons.mp made
  have unsent : ∀ t ∈ earlier, ∀ e, ¬ t.Sends c m s.caller e := by
    intro t member e sends
    have zero := sends.result (before t member)
    rw [retried t member] at zero
    exact absurd zero (by decide)
  have accepts := made.accepts_iff final
  constructor
  · rintro ⟨-, later, t, before', dst, split, sends, carries, -⟩
    refine ⟨last, by simp [tries], accepts.mp ?_⟩
    rw [tries] at split
    have member : t ∈ last :: earlier := by simp [split]
    rcases List.mem_cons.mp member with rfl | old
    · exact ⟨dst, sends, carries⟩
    · exact absurd sends (unsent t old dst)
  · rintro ⟨t, head, accepted⟩
    obtain rfl : last = t := by simpa [tries] using head
    obtain ⟨dst, sends, carries⟩ := accepts.mpr accepted
    refine ⟨?_, [], last, earlier, dst, tries, sends, carries, unsent⟩
    rw [sends.result made]
    exact lt_irrefl 0

theorem Sending.first {m : IpcSend} {s : Tracked npages} {k' : Kernel npages} {ambient : Ambient}
    {result : Int} (reached : TrackedReached platform s) (live : s.kernel.Live c)
    (orderly : OrderlyCall s.kernel c m.trySend)
    (called : syscall s.kernel c ambient m.trySend = some (.returns result, k'))
    (ended : result ≠ -eIpcNotRecv) :
    Sending platform c m ⟨⟨k', s.asked⟩, (s.kernel.envs c).envId, .returned result,
      [⟨s, result, k'⟩]⟩ := by
  have stepped : trackedStep s (.call c ambient m.trySend) = some ⟨k', s.asked⟩ := by
    simp only [trackedStep, kernelStep, if_pos live, called, Option.map_some]
    rfl
  have own : senderStep c m ⟨s, (s.kernel.envs c).envId, .trying, []⟩ (.own ambient) =
      some ⟨⟨k', s.asked⟩, (s.kernel.envs c).envId, .returned result, [⟨s, result, k'⟩]⟩ := by
    simp [senderStep, SendLoop.call, stepped, called, Sender.advance, ended]
  refine ⟨⟨s, (s.kernel.envs c).envId, .trying, []⟩, _, ⟨reached, rfl, rfl, rfl⟩, .snoc .nil ?_ own⟩
  exact orderly

theorem trySend_plain {envid : EnvId} {value perm : BitVec 32} :
    IpcSend.trySend ⟨envid, value, 0, perm⟩ = .ipcTrySend envid value utop perm := by
  rw [IpcSend.trySend, IpcSend.srcva, if_pos rfl]

theorem sample_sent_iff : ∃ (s : Sender 4096) (c : EnvIdx) (m : IpcSend),
    Sending sample c m s ∧ s.pc = .returned 0 ∧
    (¬ (0 : Int) < 0 ∧ s.SentOnce c m ↔ ∃ last ∈ s.tries.head?, last.before.Accepts c m) := by
  obtain ⟨s, k', c, e, reached, live, -, orderly, called⟩ := sample_plain
  rw [← trySend_plain] at orderly called
  have sending := Sending.first reached live orderly called (by decide)
  exact ⟨_, c, _, sending, rfl, ipcSend_sent_iff sending rfl⟩

theorem absent_id (k : Kernel npages) (c : EnvIdx) :
    ∃ envid, envid2env k c envid false = none := by
  by_cases first : (k.envs 0).envId = 0x1000#32
  · refine ⟨0x2000#32, ?_⟩
    have slot : envx 0x2000#32 = 0 := by decide
    simp [envid2env, slot, first]
  · refine ⟨0x1000#32, ?_⟩
    have slot : envx 0x1000#32 = 0 := by decide
    simp [envid2env, slot, first]

/-- To an environment that does not exist, `ipc_send` sends nothing and returns. -/
theorem absent_not_sent : ∃ (s : Sender 4096) (c : EnvIdx) (m : IpcSend),
    Sending sample c m s ∧ s.pc = .returned (-eBadEnv) ∧ ¬ s.SentOnce c m := by
  obtain ⟨k, g, c, e, reached, fresh, live, -⟩ := sample_silent
  obtain ⟨asked, tracked⟩ := reached.tracked
  obtain ⟨envid, absent⟩ := absent_id k c
  have called : syscall k c ⟨none, 0, none⟩ (.ipcTrySend envid 0 utop 0) =
      some (.returns (-eBadEnv), k) := by
    simp [syscall, returning, sysIpcTrySend, absent]
  have orderly : OrderlyCall k c (.ipcTrySend envid 0 utop 0) :=
    fun _ _ page => absurd page.1 (lt_irrefl utop)
  rw [← trySend_plain] at orderly called
  have sending := Sending.first tracked live orderly called (by decide)
  refine ⟨_, c, _, sending, rfl, fun sent => ?_⟩
  obtain ⟨later, t, earlier, dst, split, sends, -⟩ := sent
  have member : t ∈ later ++ t :: earlier := by simp
  rw [← split] at member
  obtain rfl := List.mem_singleton.mp member
  have zero : -eBadEnv = 0 := sends.result (sending.retries.made _ (List.mem_singleton_self _))
  exact absurd zero (by decide)

end Jos
