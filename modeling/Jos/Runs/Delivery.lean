import Jos.Processors.Mail
import Jos.Runs.Processors

/-! Delivery of messages over runs of several processors: every receive that
blocks gets the message of exactly one send before its environment runs again. -/

set_option autoImplicit false

namespace Jos

open Foundation

variable {npages ncpu : Nat} {platform : Platform npages} {s s' : Machine npages ncpu}
  {k k' : Kernel npages} {cpu : Fin ncpu} {c e : EnvIdx} {entry : Entry ncpu} {log : List IpcEvent}

def Machine.events (s : Machine npages ncpu) (entry : Entry ncpu) : List IpcEvent :=
  match s.curenv entry.cpu with
  | some c =>
    if s.status c = .dying then []
    else trapEvents (s.kernel.setEnv c { s.kernel.envs c with envTf := entry.tf }) c entry.ambient
  | none => []

def Machine.leavesInto (s : Machine npages ncpu) (cpu : Fin ncpu) : List IpcEvent :=
  match s.curenv cpu with
  | some e => [.runs e]
  | none => []

structure History (npages ncpu : Nat) where
  machine : Machine npages ncpu
  log : List IpcEvent

def History.Started (platform : Platform npages) (h : History npages ncpu) : Prop :=
  h.machine.Started platform ∧ h.log = []

def historyStep (h : History npages ncpu) (entry : Entry ncpu) : Option (History npages ncpu) :=
  (trap h.machine entry).map fun s =>
    ⟨s, h.log ++ h.machine.events entry ++ s.leavesInto entry.cpu⟩

/-- The call disturbs no environment that executes: it neither sets the status of
one, but to running or dying, nor destroys one that is dying elsewhere. -/
def Undisturbing (k : Kernel npages) (busy : EnvIdx → Prop) (c : EnvIdx) : Syscall → Prop
  | .envSetStatus envid status => ∀ e, envid2env k c envid true = some e → busy e →
      status.toInt < 0 ∨ 4 < status.toInt ∨ status = 1 ∨ status = 3
  | .envDestroy envid => ∀ e, envid2env k c envid true = some e → busy e → e ≠ c →
      (k.envs e).envStatus ≠ .dying
  | _ => True

/-- The system calls are plain and disturb no environment that executes. -/
def History.Courteous (h : History npages ncpu) (entry : Entry ncpu) : Prop :=
  ∀ c, h.machine.curenv entry.cpu = some c → h.machine.status c ≠ .dying →
    entry.tf.tfTrapno.toNat = tSyscall →
      PlainCall h.machine.kernel c entry.tf.request ∧
      Undisturbing h.machine.kernel h.machine.Busy c entry.tf.request

/-- The invariant: the environments have kept the order of events, their slots
say so, and those that execute have taken their messages. -/
structure History.Told (h : History npages ncpu) : Prop where
  exclusive : h.machine.Exclusive
  recorded : Recorded h.machine.kernel h.log
  noted : ∀ {cpu e}, h.machine.curenv cpu = some e → Noted h.log e

theorem Noted.run (noted : Noted log e) (x : EnvIdx) : Noted (log ++ [.runs x]) e := by
  by_cases self : x = e
  · subst self
    rcases noted with ready | ⟨message, reads⟩
    · exact .inl ((phaseOf_own ready rfl).trans rfl)
    · exact .inr ⟨message, (phaseOf_own reads rfl).trans rfl⟩
  · exact noted.other self

theorem History.Told.receives {h : History npages ncpu} (told : h.Told)
    (here : h.machine.curenv cpu = some e) :
    (h.machine.kernel.envs e).envIpcRecving = false := by
  obtain ⟨phase, known, agrees⟩ := told.recorded e
  refine (agrees (told.exclusive.live here)).idle ?_
  rintro rfl
  rcases told.noted here with ready | ⟨message, reads⟩
  · rw [known] at ready
    cases ready
  · rw [known] at reads
    cases reads

theorem History.Told.safe {h : History npages ncpu} (told : h.Told) (courteous : h.Courteous entry) :
    h.machine.Safe entry := by
  intro c here alive trapno
  obtain ⟨-, undisturbing⟩ := courteous c here alive trapno
  cases request : entry.tf.request with
  | envSetStatus envid status =>
    rw [request] at undisturbing
    exact undisturbing
  | envDestroy envid =>
    rw [request] at undisturbing
    exact undisturbing
  | ipcTrySend envid value srcva perm =>
    rintro x - ⟨slot, there⟩
    exact told.receives there
  | _ => trivial

/-- The history stays in order when a processor that is in the kernel goes to an
environment that may run. -/
theorem Recorded.envRun (recorded : Recorded s.kernel log) (listed : s.kernel.Listed)
    (noted : ∀ slot x, slot ≠ cpu → s.curenv slot = some x → Noted log x)
    (awake : s.status e = .running ∨ s.status e = .dying ∨ s.status e = .runnable) :
    Recorded (Jos.envRun s cpu e).kernel (log ++ (Jos.envRun s cpu e).leavesInto cpu) ∧
      ∀ slot x, (Jos.envRun s cpu e).curenv slot = some x →
        Noted (log ++ (Jos.envRun s cpu e).leavesInto cpu) x := by
  have live : s.kernel.Live e := fun absent => by
    have free : s.status e = .free := listed.idle absent
    rw [free] at awake
    simp at awake
  have unblocked : s.status e ≠ .notRunnable := fun blocked => by
    rw [blocked] at awake
    simp at awake
  have into : (Jos.envRun s cpu e).leavesInto cpu = [.runs e] := by
    rw [Machine.leavesInto, envRun_curenv, if_pos rfl]
  obtain ⟨ran, reads⟩ := recorded.run (s.curenv cpu) cpu.val live unblocked
  rw [into]
  refine ⟨ran, fun slot x there => ?_⟩
  rw [envRun_curenv] at there
  split at there
  · obtain rfl := Option.some.inj there
    exact reads
  · rename_i other
    exact (noted slot x other there).run e

theorem Recorded.schedYield (recorded : Recorded s.kernel log) (listed : s.kernel.Listed)
    (noted : ∀ slot x, slot ≠ cpu → s.curenv slot = some x → Noted log x)
    (ran : Jos.schedYield s cpu = some s') :
    Recorded s'.kernel (log ++ s'.leavesInto cpu) ∧
      ∀ slot x, s'.curenv slot = some x → Noted (log ++ s'.leavesInto cpu) x := by
  rcases schedYield_cases ran with ⟨e, runnable, rfl⟩ | ⟨e, -, running, rfl⟩ | ⟨rfl, -⟩
  · exact Recorded.envRun (s := { s with envCounter := e }) recorded listed noted
      (.inr (.inr runnable))
  · exact recorded.envRun listed noted (.inl running)
  · have gone (slot : Fin ncpu) : ((s.setCurenv cpu none).setCpuStatus cpu .halted).curenv slot =
        if slot = cpu then none else s.curenv slot := by
      rw [Machine.curenv_setCpuStatus, Machine.curenv_setCurenv]
    have into : ((s.setCurenv cpu none).setCpuStatus cpu .halted).leavesInto cpu = [] := by
      rw [Machine.leavesInto, gone, if_pos rfl]
    rw [into, List.append_nil]
    refine ⟨recorded, fun slot x there => ?_⟩
    rw [gone] at there
    split at there
    · cases there
    · rename_i other
      exact noted slot x other there

theorem Recorded.leave {exit : Exit} (recorded : Recorded s.kernel log)
    (listed : s.kernel.Listed)
    (noted : ∀ slot x, slot ≠ cpu → s.curenv slot = some x → Noted log x)
    (user : exit = .toUser → s.status c = .running ∨ s.status c = .dying)
    (ran : Jos.leave s cpu c exit = some s') :
    Recorded s'.kernel (log ++ s'.leavesInto cpu) ∧
      ∀ slot x, s'.curenv slot = some x → Noted (log ++ s'.leavesInto cpu) x := by
  cases exit with
  | toTrap =>
    simp only [Jos.leave] at ran
    split at ran
    · rename_i running
      cases ran
      exact recorded.envRun listed noted (.inl running)
    · exact recorded.schedYield listed noted ran
  | toUser =>
    cases ran
    exact recorded.envRun listed noted ((user rfl).imp_right .inl)
  | toSched => exact recorded.schedYield listed noted ran
  | toSchedAfterExit =>
    refine Recorded.schedYield (s := s.setCurenv cpu none) recorded listed
      (fun slot x other there => ?_) ran
    rw [Machine.curenv_setCurenv, if_neg other] at there
    exact noted slot x other there

theorem PlainCall.setTf {tf : Trapframe} {call : Syscall} (plain : PlainCall k c call) :
    PlainCall (k.setEnv c { k.envs c with envTf := tf }) c call := by
  have receives (x : EnvIdx) : ((k.setEnv c { k.envs c with envTf := tf }).envs x).envIpcRecving =
      (k.envs x).envIpcRecving := by
    rw [setEnv_apply]
    split
    · rename_i same
      rw [same]
    · rfl
  cases call with
  | envSetStatus envid status =>
    intro e found
    rw [envid2env_setTf] at found
    rw [receives]
    exact plain e found
  | envDestroy envid =>
    intro e found
    rw [envid2env_setTf] at found
    rw [receives]
    exact plain e found
  | ipcTrySend envid value srcva perm =>
    rw [PlainCall, envid2env_setTf]
    exact plain
  | _ => trivial

theorem History.Told.step {h h' : History npages ncpu} (told : h.Told)
    (courteous : h.Courteous entry) (ran : historyStep h entry = some h') : h'.Told := by
  obtain ⟨s', trapped, rfl⟩ := Option.map_eq_some_iff.mp ran
  have exclusive := told.exclusive.trap (told.safe courteous) trapped
  obtain ⟨entered, begun⟩ := told.exclusive.entered trapped
  have same (slot : Fin ncpu) : (h.machine.setCpuStatus entry.cpu .started).curenv slot =
      h.machine.curenv slot := Machine.curenv_setCpuStatus
  have noted {slot : Fin ncpu} {x : EnvIdx}
      (there : (h.machine.setCpuStatus entry.cpu .started).curenv slot = some x) :
      Noted h.log x := told.noted ((same slot).symm.trans there)
  suffices both : Recorded s'.kernel
      (h.log ++ h.machine.events entry ++ s'.leavesInto entry.cpu) ∧
      ∀ slot x, s'.curenv slot = some x →
        Noted (h.log ++ h.machine.events entry ++ s'.leavesInto entry.cpu) x from
    ⟨exclusive, both.1, both.2 _ _⟩
  cases entered with
  | idle here yields =>
    rw [same] at here
    have events : h.machine.events entry = [] := by rw [Machine.events, here]
    rw [events, List.append_nil]
    exact Recorded.schedYield (s := h.machine.setCpuStatus entry.cpu .started) told.recorded
      begun.listed (fun _ _ _ => noted) yields
  | @dying c k' here dying freed yields =>
    rw [same] at here
    have events : h.machine.events entry = [] := by
      rw [Machine.events, here]
      exact if_pos dying
    rw [events, List.append_nil]
    refine Recorded.schedYield
      (s := ((h.machine.setCpuStatus entry.cpu .started).setKernel k').setCurenv entry.cpu none)
      (Recorded.free (k := h.machine.kernel) told.recorded freed) (begun.listed.free freed)
      (fun slot x other there => ?_) yields
    rw [Machine.curenv_setCurenv, if_neg other] at there
    exact noted there
  | @handled c k' call outcome exit here alive _ handled ended left =>
    rw [same] at here
    have alive : h.machine.status c ≠ .dying := alive
    set k := h.machine.kernel.setEnv c { h.machine.kernel.envs c with envTf := entry.tf } with saved
    have events : h.machine.events entry = trapEvents k c entry.ambient := by
      rw [Machine.events, here]
      exact if_neg alive
    have frame : (k.envs c).envTf = entry.tf := by simp [saved, Kernel.setEnv]
    have live {x : EnvIdx} (there : h.machine.kernel.Live x) : k.Live x := by
      rw [Kernel.Live, saved, (setTf_fields entry.tf x).1]
      exact there
    obtain ⟨recorded, others⟩ := (told.recorded.setTf entry.tf).trapDispatch
      (begun.listed.setEnv ⟨rfl, rfl, rfl, rfl, fun _ => rfl⟩)
      (live (told.exclusive.live here)) (told.noted here)
      (fun trapno => by
        rw [← saved, frame] at trapno ⊢
        exact (courteous c here alive trapno).1.setTf) handled
    rw [events]
    refine Recorded.leave (s := (h.machine.setCpuStatus entry.cpu .started).setKernel k')
      recorded ended.listed (fun slot x other there => ?_) (fun user => ?_) left
    · have there : h.machine.curenv slot = some x := (same slot).symm.trans there
      refine others x ?_ (live (told.exclusive.live there)) (told.noted there)
      rintro rfl
      exact other (told.exclusive.alone there here)
    · have status := ended.user user
      change (k'.envs c).envStatus = _ ∨ (k'.envs c).envStatus = _
      rw [status, (setTf_fields entry.tf c).2]
      exact told.exclusive.busy here

theorem History.Started.told {h : History npages ncpu} (started : h.Started platform) : h.Told := by
  obtain ⟨started, empty⟩ := started
  have quiet : ∀ e, (h.machine.kernel.envs e).envIpcRecving = false := by
    obtain ⟨⟨k, events, booted, along⟩, -, -⟩ := started
    refine along.preserves (fun k => ∀ e, (k.envs e).envIpcRecving = false) (fun e => ?_)
      fun before event after quiet created ran e => ?_
    · obtain ⟨g, booted⟩ := boot_booted booted
      obtain ⟨link, zeroed⟩ := booted.envs e
      rw [zeroed]
      rfl
    · obtain ⟨binary, type, rfl⟩ := created
      obtain ⟨slot, k₁, m, tf, allocated, rfl⟩ := envCreate_cases ran
      obtain ⟨-, -, root, envs⟩ := envAlloc_envs allocated
      have middle (x : EnvIdx) : (k₁.envs x).envIpcRecving = false := by
        rw [envs, Function.update_apply]
        split
        · rfl
        · exact quiet x
      rw [setEnv_apply]
      split
      · exact middle slot
      · exact middle e
  refine ⟨started.exclusive, fun e => ⟨.ready, by rw [empty]; rfl, fun _ => ?_⟩, fun here => ?_⟩
  · exact ⟨nofun, fun _ => quiet e, fun message holds => by rcases holds with none | none <;> cases none⟩
  · rw [started.2.1] at here
    cases here

/-- Every receive is matched with one send, and every send with one receive; the
message stays until the next receive, and nothing is sent to an environment that
does not wait. -/
structure History.DeliversOnce (h : History npages ncpu) : Prop where
  /-- Between the start of a receive and its end there is one send to it. -/
  matched : ∀ e before middle after, h.log = before ++ .began e :: (middle ++ .runs e :: after) →
    .runs e ∉ middle → .born e ∉ middle →
    ∃ message, middle.filter (fun event => event.env = e) = [.sent e message]
  /-- A send goes to a receive that has not had one yet. -/
  taken : ∀ e message before after, h.log = before ++ .sent e message :: after →
    ∃ earlier middle, before = earlier ++ .began e :: middle ∧
      ∀ event ∈ middle, event.env ≠ e
  /-- The message is there until the environment receives again. -/
  kept : ∀ e message before after, h.log = before ++ .sent e message :: after →
    (∀ event ∈ after, event.env = e → event = .runs e) → h.machine.kernel.Live e →
    (h.machine.kernel.envs e).envIpcValue = message.value ∧
      (h.machine.kernel.envs e).envIpcFrom = message.sender
  /-- A send to an environment that does not wait fails and changes nothing. -/
  refused : ∀ cpu c e envid value perm ambient, h.machine.curenv cpu = some c →
    envid2env h.machine.kernel c envid false = some e → phaseOf e h.log ≠ some .waiting →
    syscall h.machine.kernel c ambient (.ipcTrySend envid value utop perm) =
      some (.returns (-eIpcNotRecv), h.machine.kernel)

theorem History.Told.delivers {h : History npages ncpu} (told : h.Told) : h.DeliversOnce where
  matched e before middle after log unread unborn := by
    obtain ⟨phase, known, -⟩ := told.recorded e
    rw [log] at known
    obtain ⟨first, second, -, begins, rest⟩ := phaseOf_split known rfl
    have waits : second = .waiting := Phase.advance_began begins
    subst waits
    exact Phase.between rest unread unborn
  taken e message before after log := by
    obtain ⟨phase, known, -⟩ := told.recorded e
    rw [log] at known
    obtain ⟨first, second, waits, sends, -⟩ := phaseOf_split known rfl
    obtain rfl : first = .waiting := Phase.advance_sent sends
    exact phaseOf_waiting waits
  kept e message before after log only live := by
    obtain ⟨phase, known, agrees⟩ := told.recorded e
    rw [log] at known
    obtain ⟨first, second, -, sends, rest⟩ := phaseOf_split known rfl
    obtain rfl : first = .waiting := Phase.advance_sent sends
    cases sends
    exact (agrees live).content message (Phase.keeps (.inl rfl) rest only)
  refused cpu c e envid value perm ambient here found idle := by
    obtain ⟨phase, known, agrees⟩ := told.recorded e
    have live := told.exclusive.listed.envid2env_live (told.exclusive.live here) found
    have deaf := (agrees live).idle fun waits => idle (by rw [known, waits])
    simp [syscall, sysIpcTrySend, found, deaf, returning]

end Jos
