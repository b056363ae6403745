import Jos.Processors.Entry

/-! The messages of IPC as a history: what each environment has done in it, and
what the fields of its slot say then. -/

set_option autoImplicit false

namespace Jos

open Function

variable {npages : Nat} {k k' : Kernel npages} {c e : EnvIdx} {call : Syscall} {outcome : Outcome}

structure Message where
  value : BitVec 32
  sender : EnvId
deriving DecidableEq, Repr

inductive IpcEvent where
  /-- The slot is handed out by `sys_exofork`. -/
  | born (e : EnvIdx)
  /-- The environment blocks in `sys_ipc_recv`. -/
  | began (e : EnvIdx)
  /-- A send to the environment returns 0. -/
  | sent (e : EnvIdx) (message : Message)
  /-- A processor leaves the kernel into the environment. -/
  | runs (e : EnvIdx)
deriving DecidableEq, Repr

def IpcEvent.env : IpcEvent → EnvIdx
  | .born e | .began e | .sent e _ | .runs e => e

inductive Phase where
  | ready
  | waiting
  | delivered (message : Message)
  | reads (message : Message)
deriving DecidableEq, Repr

/-- The order in which things may happen to one environment: a receive that has
begun takes one message, and only then does the environment run again. -/
def Phase.advance : Phase → IpcEvent → Option Phase
  | _, .born _ => some .ready
  | .ready, .began _ | .reads _, .began _ => some .waiting
  | .waiting, .sent _ message => some (.delivered message)
  | .delivered message, .runs _ => some (.reads message)
  | .ready, .runs _ => some .ready
  | .reads message, .runs _ => some (.reads message)
  | _, _ => none

def Phase.next (e : EnvIdx) (phase : Phase) (event : IpcEvent) : Option Phase :=
  if event.env = e then phase.advance event else some phase

/-- The phase of an environment after a history; `none` when the history breaks
the order. -/
def phaseOf (e : EnvIdx) (log : List IpcEvent) : Option Phase :=
  log.foldlM (Phase.next e) .ready

structure Agrees (env : Env npages) (phase : Phase) : Prop where
  waiting : phase = .waiting → env.envIpcRecving = true ∧ env.envStatus = .notRunnable
  idle : phase ≠ .waiting → env.envIpcRecving = false
  content : ∀ message, phase = .delivered message ∨ phase = .reads message →
    env.envIpcValue = message.value ∧ env.envIpcFrom = message.sender

def callEvents (k : Kernel npages) (c : EnvIdx) : Syscall → Outcome → List IpcEvent
  | .ipcRecv _, .yields => [.began c]
  | .ipcTrySend envid value _ _, .returns result =>
    if result = 0 then
      match envid2env k c envid false with
      | some dst => [.sent dst ⟨value, (k.envs c).envId⟩]
      | none => []
    else []
  | .exofork, .returns result =>
    if 0 < result then [.born (envx (BitVec.ofInt 32 result))] else []
  | _, _ => []

theorem phaseOf_append {log more : List IpcEvent} :
    phaseOf e (log ++ more) = (phaseOf e log).bind fun phase => more.foldlM (Phase.next e) phase := by
  rw [phaseOf, List.foldlM_append]
  rfl

theorem phaseOf_other {log : List IpcEvent} {event : IpcEvent} {phase : Phase}
    (known : phaseOf e log = some phase) (other : event.env ≠ e) :
    phaseOf e (log ++ [event]) = some phase := by
  simp [phaseOf_append, known, Phase.next, other]

theorem phaseOf_own {log : List IpcEvent} {event : IpcEvent} {phase : Phase}
    (known : phaseOf e log = some phase) (own : event.env = e) :
    phaseOf e (log ++ [event]) = phase.advance event := by
  simp [phaseOf_append, known, Phase.next, own]

theorem phaseOf_split {before after : List IpcEvent} {event : IpcEvent} {phase : Phase}
    (known : phaseOf e (before ++ event :: after) = some phase) (own : event.env = e) :
    ∃ first second, phaseOf e before = some first ∧ first.advance event = some second ∧
      after.foldlM (Phase.next e) second = some phase := by
  rw [phaseOf_append] at known
  obtain ⟨first, reached, known⟩ := Option.bind_eq_some_iff.mp known
  rw [List.foldlM_cons] at known
  obtain ⟨second, next, rest⟩ := Option.bind_eq_some_iff.mp known
  rw [Phase.next, if_pos own] at next
  exact ⟨first, second, reached, next, rest⟩

theorem Phase.advance_began {first second : Phase} (next : first.advance (.began e) = some second) :
    second = .waiting := by
  cases first <;> cases next <;> rfl

theorem Phase.advance_sent {first second : Phase} {message : Message}
    (next : first.advance (.sent e message) = some second) : first = .waiting := by
  cases first <;> cases next
  rfl

theorem Phase.next_runs {phase : Phase} :
    Phase.next e phase (.runs e) = phase.advance (.runs e) := if_pos rfl

theorem Phase.between {middle after : List IpcEvent} {phase : Phase}
    (rest : (middle ++ .runs e :: after).foldlM (Phase.next e) .waiting = some phase)
    (unread : .runs e ∉ middle) (unborn : .born e ∉ middle) :
    ∃ message, middle.filter (fun event => event.env = e) = [.sent e message] := by
  -- Once the message is there, nothing but the run may follow.
  have quiet {middle : List IpcEvent} {message : Message}
      (rest : (middle ++ .runs e :: after).foldlM (Phase.next e) (.delivered message) = some phase)
      (unread : .runs e ∉ middle) (unborn : .born e ∉ middle) :
      middle.filter (fun event => event.env = e) = [] := by
    induction middle with
    | nil => rfl
    | cons event middle ih =>
      rw [List.mem_cons, not_or] at unread unborn
      rw [List.cons_append, List.foldlM_cons] at rest
      obtain ⟨second, next, rest⟩ := Option.bind_eq_some_iff.mp rest
      by_cases own : event.env = e
      · rw [Phase.next, if_pos own] at next
        cases event with
        | born x => exact absurd (congrArg IpcEvent.born own.symm) unborn.1
        | runs x => exact absurd (congrArg IpcEvent.runs own.symm) unread.1
        | began x => cases next
        | sent x given => cases next
      · rw [Phase.next, if_neg own] at next
        cases next
        rw [List.filter_cons_of_neg (by simpa using own)]
        exact ih rest unread.2 unborn.2
  induction middle with
  | nil =>
    rw [List.nil_append, List.foldlM_cons] at rest
    obtain ⟨second, next, -⟩ := Option.bind_eq_some_iff.mp rest
    rw [Phase.next_runs] at next
    cases next
  | cons event middle ih =>
    rw [List.mem_cons, not_or] at unread unborn
    rw [List.cons_append, List.foldlM_cons] at rest
    obtain ⟨second, next, rest⟩ := Option.bind_eq_some_iff.mp rest
    by_cases own : event.env = e
    · rw [Phase.next, if_pos own] at next
      cases event with
      | born x => exact absurd (congrArg IpcEvent.born own.symm) unborn.1
      | runs x => exact absurd (congrArg IpcEvent.runs own.symm) unread.1
      | began x => cases next
      | sent x message =>
        cases next
        have same : x = e := own
        subst same
        rw [List.filter_cons_of_pos (by simp [IpcEvent.env]), quiet rest unread.2 unborn.2]
        exact ⟨message, rfl⟩
    · rw [Phase.next, if_neg own] at next
      cases next
      rw [List.filter_cons_of_neg (by simpa using own)]
      exact ih rest unread.2 unborn.2

theorem phaseOf_waiting {log : List IpcEvent} (waits : phaseOf e log = some .waiting) :
    ∃ earlier middle, log = earlier ++ .began e :: middle ∧ ∀ event ∈ middle, event.env ≠ e := by
  induction log using List.reverseRecOn with
  | nil => cases waits
  | append_singleton log event ih =>
    by_cases own : event.env = e
    · obtain ⟨first, second, -, next, rest⟩ := phaseOf_split waits own
      cases rest
      cases event with
      | began x =>
        have same : x = e := own
        subst same
        exact ⟨log, [], rfl, nofun⟩
      | born x => cases first <;> cases next
      | sent x message => cases first <;> cases next
      | runs x => cases first <;> cases next
    · rw [phaseOf_append] at waits
      obtain ⟨phase, known, rest⟩ := Option.bind_eq_some_iff.mp waits
      rw [List.foldlM_cons, Phase.next, if_neg own] at rest
      cases rest
      obtain ⟨earlier, middle, rfl, others⟩ := ih known
      refine ⟨earlier, middle ++ [event], by simp, fun other there => ?_⟩
      rcases List.mem_append.mp there with inside | last
      · exact others other inside
      · rw [List.mem_singleton.mp last]
        exact own

theorem Phase.keeps {after : List IpcEvent} {first phase : Phase} {message : Message}
    (has : first = .delivered message ∨ first = .reads message)
    (rest : after.foldlM (Phase.next e) first = some phase)
    (only : ∀ event ∈ after, event.env = e → event = .runs e) :
    phase = .delivered message ∨ phase = .reads message := by
  induction after generalizing first with
  | nil =>
    cases rest
    exact has
  | cons event after ih =>
    rw [List.foldlM_cons] at rest
    obtain ⟨second, next, rest⟩ := Option.bind_eq_some_iff.mp rest
    have others := fun other there => only other (List.mem_cons_of_mem event there)
    by_cases own : event.env = e
    · obtain rfl := only event List.mem_cons_self own
      rw [Phase.next_runs] at next
      rcases has with rfl | rfl <;> obtain rfl := Option.some.inj next <;>
        exact ih (.inr rfl) rest others
    · rw [Phase.next, if_neg own] at next
      cases next
      exact ih has rest others

/-- Every environment has kept the order, and its slot agrees with it. -/
def Recorded (k : Kernel npages) (log : List IpcEvent) : Prop :=
  ∀ e, ∃ phase, phaseOf e log = some phase ∧ (k.Live e → Agrees (k.envs e) phase)

structure SameMail (env env' : Env npages) : Prop where
  recving : env'.envIpcRecving = env.envIpcRecving
  value : env'.envIpcValue = env.envIpcValue
  sender : env'.envIpcFrom = env.envIpcFrom

theorem Agrees.congr {env env' : Env npages} {phase : Phase} (agrees : Agrees env phase)
    (mail : SameMail env env')
    (status : env.envIpcRecving = true → env'.envStatus = env.envStatus) :
    Agrees env' phase where
  waiting here := by
    obtain ⟨recving, blocked⟩ := agrees.waiting here
    exact ⟨mail.recving.trans recving, (status recving).trans blocked⟩
  idle other := mail.recving.trans (agrees.idle other)
  content message holds := by
    obtain ⟨value, sender⟩ := agrees.content message holds
    exact ⟨mail.value.trans value, mail.sender.trans sender⟩

/-- A change that leaves the fields of IPC and the status of blocked environments
alone needs no entry in the history. -/
theorem Recorded.congr {log : List IpcEvent} (recorded : Recorded k log)
    (kept : ∀ x, k'.Live x → k.Live x ∧ SameMail (k.envs x) (k'.envs x) ∧
      ((k.envs x).envIpcRecving = true → (k'.envs x).envStatus = (k.envs x).envStatus)) :
    Recorded k' log := by
  intro x
  obtain ⟨phase, known, agrees⟩ := recorded x
  refine ⟨phase, known, fun live => ?_⟩
  obtain ⟨before, mail, status⟩ := kept x live
  exact (agrees before).congr mail status

theorem Recorded.setPmap {log : List IpcEvent} (recorded : Recorded k log) (m : Pmap npages) :
    Recorded (k.setPmap m) log :=
  recorded.congr fun _ live => ⟨live, ⟨rfl, rfl, rfl⟩, fun _ => rfl⟩

theorem setEnv_apply {env : Env npages} (x : EnvIdx) :
    (k.setEnv e env).envs x = if x = e then env else k.envs x :=
  update_apply k.envs e env x

theorem Recorded.setEnv {log : List IpcEvent} (recorded : Recorded k log) {env : Env npages}
    (space : env.envPml4e = (k.envs e).envPml4e) (mail : SameMail (k.envs e) env)
    (status : (k.envs e).envIpcRecving = true → env.envStatus = (k.envs e).envStatus) :
    Recorded (k.setEnv e env) log := by
  refine recorded.congr fun x live => ?_
  rw [Kernel.Live, setEnv_apply] at live
  rw [setEnv_apply]
  by_cases same : x = e
  · subst same
    rw [if_pos rfl] at live ⊢
    rw [space] at live
    exact ⟨live, mail, status⟩
  · rw [if_neg same] at live ⊢
    exact ⟨live, ⟨rfl, rfl, rfl⟩, fun _ => rfl⟩

theorem Recorded.free {log : List IpcEvent} (recorded : Recorded k log)
    (ran : envFree k e = some k') : Recorded k' log := by
  refine recorded.congr fun x live => ?_
  have envs := (envFree_envs ran).2.2
  by_cases same : x = e
  · subst same
    rw [Kernel.Live, envs, update_self] at live
    exact absurd rfl live
  · rw [Kernel.Live, envs, update_of_ne same] at live
    rw [envs, update_of_ne same]
    exact ⟨live, ⟨rfl, rfl, rfl⟩, fun _ => rfl⟩

/-- A call that is no concern of IPC: it neither sets the status of a blocked
environment nor destroys it, and a send carries no page and goes to another. -/
def PlainCall (k : Kernel npages) (c : EnvIdx) : Syscall → Prop
  | .envSetStatus envid _ | .envDestroy envid => ∀ e, envid2env k c envid true = some e →
      (k.envs e).envIpcRecving = false
  | .ipcTrySend envid _ srcva _ => srcva = utop ∧ envid2env k c envid false ≠ some c
  | _ => True

def Noted (log : List IpcEvent) (e : EnvIdx) : Prop :=
  phaseOf e log = some .ready ∨ ∃ message, phaseOf e log = some (.reads message)

theorem Noted.other {log : List IpcEvent} {event : IpcEvent} (settled : Noted log e)
    (other : event.env ≠ e) : Noted (log ++ [event]) e := by
  rcases settled with ready | ⟨message, reads⟩
  · exact .inl (phaseOf_other ready other)
  · exact .inr ⟨message, phaseOf_other reads other⟩

theorem callEvents_nil (quiet : ∀ dstva, call = .ipcRecv dstva → outcome ≠ .yields)
    (unsent : ∀ envid value srcva perm, call = .ipcTrySend envid value srcva perm →
      outcome ≠ .returns 0) (unborn : call = .exofork → ∀ value, outcome = .returns value →
        value ≤ 0) : callEvents k c call outcome = [] := by
  cases call with
  | ipcRecv dstva =>
    cases outcome with
    | yields => exact absurd rfl (quiet dstva rfl)
    | _ => rfl
  | ipcTrySend envid value srcva perm =>
    cases outcome with
    | returns result =>
      have nonzero : result ≠ 0 := fun zero => unsent _ _ _ _ rfl (by rw [zero])
      exact if_neg nonzero
    | _ => rfl
  | exofork =>
    cases outcome with
    | returns result => exact if_neg (not_lt.mpr (unborn rfl result rfl))
    | _ => rfl
  | _ => rfl

theorem sysExofork_failed {value : Int} (listed : k.Listed) (ran : sysExofork k c = (value, k'))
    (same : k'.envs = k.envs) : value ≤ 0 := by
  unfold sysExofork at ran
  cases outcome : envAlloc k (k.envs c).envId with
  | error code =>
    rw [outcome] at ran
    cases ran
    unfold envAlloc at outcome
    split at outcome
    · obtain rfl := Except.error.inj outcome
      decide
    · split at outcome
      · obtain rfl := Except.error.inj outcome
        decide
      · cases outcome
  | ok result =>
    obtain ⟨e, k₁⟩ := result
    rw [outcome] at ran
    cases ran
    obtain ⟨-, -, root, envs⟩ := envAlloc_envs outcome
    have dead := (listed.alloc outcome).2
    have there : (k₁.envs e).envPml4e = some root := by
      rw [envs, update_self]
      rfl
    rw [← same, setEnv_apply, if_pos rfl, there] at dead
    cases dead

/-- A plain call of an environment that runs is recorded by its events; others
that run are left alone. -/
theorem Recorded.syscall {log : List IpcEvent} {ambient : Ambient} (recorded : Recorded k log)
    (listed : k.Listed) (live : k.Live c) (settled : Noted log c) (plain : PlainCall k c call)
    (ran : Jos.syscall k c ambient call = some (outcome, k')) :
    Recorded k' (log ++ callEvents k c call outcome) ∧
      (∀ x, x ≠ c ∨ outcome ≠ .yields → k.Live x → Noted log x →
        Noted (log ++ callEvents k c call outcome) x) := by
  have quietly (kept : Recorded k' log) (none : callEvents k c call outcome = []) :
      Recorded k' (log ++ callEvents k c call outcome) ∧
        (∀ x, x ≠ c ∨ outcome ≠ .yields → k.Live x → Noted log x →
          Noted (log ++ callEvents k c call outcome) x) := by
    rw [none, List.append_nil]
    exact ⟨kept, fun _ _ _ => id⟩
  cases syscall_effect ran with
  | @memory _ value m same negative untouched =>
    subst same
    refine quietly (recorded.setPmap m) (callEvents_nil ?_ ?_ ?_)
    · exact fun _ _ => by simp
    · rintro envid value' srcva perm rfl equal
      obtain rfl := Outcome.returns.inj equal
      exact absurd (negative rfl) (lt_irrefl 0)
    · rintro rfl value' equal
      obtain rfl := Outcome.returns.inj equal
      simp only [Jos.syscall, returning, Option.map_some, Option.some.injEq, Prod.mk.injEq,
        Outcome.returns.injEq] at ran
      exact sysExofork_failed listed (Prod.ext ran.1 ran.2) rfl
  | yield same =>
    subst same
    exact quietly recorded rfl
  | @recv dstva aligned same =>
    subst same
    refine ⟨fun x => ?_, fun x which _ keeps => ?_⟩
    · by_cases here : x = c
      · subst here
        refine ⟨.waiting, ?_, fun _ => ?_⟩
        · rcases settled with ready | ⟨message, reads⟩
          · exact phaseOf_own ready rfl
          · exact phaseOf_own reads rfl
        · rw [setEnv_apply, if_pos rfl]
          exact ⟨fun _ => ⟨rfl, rfl⟩, fun other => absurd rfl other,
            fun message holds => by rcases holds with none | none <;> cases none⟩
      · obtain ⟨phase, known, agrees⟩ := recorded x
        refine ⟨phase, phaseOf_other known (Ne.symm here), fun there => ?_⟩
        rw [Kernel.Live, setEnv_apply, if_neg here] at there
        rw [setEnv_apply, if_neg here]
        exact agrees there
    · exact keeps.other (Ne.symm (which.resolve_right (not_not.mpr rfl)))
  | @send envid value srcva perm dst m found waiting _ same =>
    subst same
    have events : callEvents k c (.ipcTrySend envid value srcva perm) (.returns 0) =
        [.sent dst ⟨value, (k.envs c).envId⟩] := by
      simp [callEvents, found]
    have there := listed.envid2env_live live found
    have blocked : phaseOf dst log = some .waiting := by
      obtain ⟨phase, known, agrees⟩ := recorded dst
      have here : phase = .waiting := by
        by_contra other
        rw [(agrees there).idle other] at waiting
        cases waiting
      rw [known, here]
    rw [events]
    refine ⟨fun x => ?_, fun x _ _ keeps => ?_⟩
    · by_cases here : x = dst
      · subst here
        refine ⟨.delivered ⟨value, (k.envs c).envId⟩, phaseOf_own blocked rfl, fun _ => ?_⟩
        rw [setEnv_apply, if_pos rfl]
        refine ⟨by simp, fun _ => rfl, fun message holds => ?_⟩
        rcases holds with same | none
        · obtain rfl := Phase.delivered.inj same
          exact ⟨rfl, rfl⟩
        · cases none
      · obtain ⟨phase, known, agrees⟩ := recorded x
        refine ⟨phase, phaseOf_other known (Ne.symm here), fun alive => ?_⟩
        rw [Kernel.Live, setEnv_apply, if_neg here] at alive
        rw [setEnv_apply, if_neg here]
        exact agrees alive
    · have other : dst ≠ x := by
        rintro rfl
        rcases keeps with ready | ⟨message, reads⟩
        · rw [ready] at blocked
          cases blocked
        · rw [reads] at blocked
          cases blocked
      exact keeps.other other
  | @exofork e k₁ allocated same =>
    subst same
    obtain ⟨-, -, root, envs⟩ := envAlloc_envs allocated
    have dead := (listed.alloc allocated).2
    have born : (k₁.envs e).envId = nextEnvId (k.envs e).envId e := by
      rw [envs, update_self]
      rfl
    obtain ⟨positive, slot⟩ := nextEnvId_spec (k.envs e).envId e
    have events : callEvents k c .exofork (.returns (k₁.envs e).envId.toInt) = [.born e] := by
      simp only [callEvents, born, if_pos positive, BitVec.ofInt_toInt, slot]
    rw [events]
    refine ⟨fun x => ?_, fun x _ alive keeps => ?_⟩
    · by_cases here : x = e
      · subst here
        obtain ⟨phase, known, -⟩ := recorded x
        refine ⟨.ready, phaseOf_own known rfl, fun _ => ?_⟩
        rw [setEnv_apply, if_pos rfl, envs, update_self]
        exact ⟨by simp, fun _ => rfl, fun message holds => by rcases holds with none | none <;> cases none⟩
      · obtain ⟨phase, known, agrees⟩ := recorded x
        have before : ((k₁.setEnv e (forkedEnv (k₁.envs e) (k₁.envs c).envTf)).envs x) =
            k.envs x := by
          rw [setEnv_apply, if_neg here, envs, update_of_ne here]
        refine ⟨phase, phaseOf_other known (Ne.symm here), fun there => ?_⟩
        rw [Kernel.Live, before] at there
        rw [before]
        exact agrees there
    · have other : e ≠ x := by
        rintro rfl
        exact alive dead
      exact keeps.other other
  | setStatus found _ _ same =>
    subst same
    refine quietly (recorded.setEnv rfl ⟨rfl, rfl, rfl⟩ fun waiting => ?_) rfl
    rw [plain _ found] at waiting
    cases waiting
  | setTrapframe found same =>
    subst same
    exact quietly (recorded.setEnv rfl ⟨rfl, rfl, rfl⟩ fun _ => rfl) rfl
  | setUpcall found same =>
    subst same
    exact quietly (recorded.setEnv rfl ⟨rfl, rfl, rfl⟩ fun _ => rfl) rfl
  | dying found _ _ same =>
    subst same
    refine quietly (recorded.setEnv rfl ⟨rfl, rfl, rfl⟩ fun waiting => ?_) rfl
    rw [plain _ found] at waiting
    cases waiting
  | destroy _ _ freed => exact quietly (recorded.free freed) rfl
  | @denied call m checks freed =>
    refine quietly ((recorded.setPmap m).free freed) (callEvents_nil ?_ ?_ ?_)
    · exact fun _ _ => by simp
    · exact fun _ _ _ _ _ => by simp
    · exact fun _ _ => by simp

/-- What a trap of `c` adds to the history. -/
def trapEvents (k : Kernel npages) (c : EnvIdx) (ambient : Ambient) : List IpcEvent :=
  if (k.envs c).envTf.tfTrapno.toNat = tSyscall then
    match syscall k c ambient (k.envs c).envTf.request with
    | some (outcome, _) => callEvents k c (k.envs c).envTf.request outcome
    | none => []
  else []

theorem Recorded.setTf {log : List IpcEvent} (recorded : Recorded k log) (tf : Trapframe) :
    Recorded (k.setEnv c { k.envs c with envTf := tf }) log :=
  recorded.setEnv rfl ⟨rfl, rfl, rfl⟩ fun _ => rfl

theorem Recorded.trapDispatch {log : List IpcEvent} {ambient : Ambient} {exit : Exit}
    (recorded : Recorded k log) (listed : k.Listed) (live : k.Live c) (noted : Noted log c)
    (plain : (k.envs c).envTf.tfTrapno.toNat = tSyscall → PlainCall k c (k.envs c).envTf.request)
    (ran : Jos.trapDispatch k c ambient = some (exit, k')) :
    Recorded k' (log ++ trapEvents k c ambient) ∧
      ∀ x, x ≠ c → k.Live x → Noted log x → Noted (log ++ trapEvents k c ambient) x := by
  have quietly (other : ¬ (k.envs c).envTf.tfTrapno.toNat = tSyscall) (kept : Recorded k' log) :
      Recorded k' (log ++ trapEvents k c ambient) ∧
        ∀ x, x ≠ c → k.Live x → Noted log x → Noted (log ++ trapEvents k c ambient) x := by
    rw [trapEvents, if_neg other, List.append_nil]
    exact ⟨kept, fun _ _ _ => id⟩
  unfold Jos.trapDispatch at ran
  simp only at ran
  split at ran
  · rename_i fault
    refine quietly (by rw [fault]; decide) ?_
    obtain ⟨m, ⟨rfl, freed⟩ | ⟨rfl, tf, rfl⟩⟩ := pageFaultHandler_cases ran
    · exact (recorded.setPmap m).free freed
    · exact (recorded.setPmap m).setTf tf
  · split at ran
    · rename_i trapno
      simp only [Option.bind_eq_bind, Option.bind_eq_some_iff] at ran
      obtain ⟨⟨outcome, k₁⟩, called, ran⟩ := ran
      have events : trapEvents k c ambient = callEvents k c (k.envs c).envTf.request outcome := by
        rw [trapEvents, if_pos trapno]
        unfold Trapframe.request
        rw [called]
      obtain ⟨kept, others⟩ := recorded.syscall listed live noted (plain trapno) called
      rw [events]
      refine ⟨?_, fun x differs => others x (.inl differs)⟩
      cases outcome with
      | returns value =>
        cases ran
        exact kept.setTf _
      | yields =>
        cases ran
        exact kept
      | exits =>
        cases ran
        exact kept
    · rename_i other
      refine quietly other ?_
      split at ran
      · obtain ⟨-, rfl⟩ := Prod.mk.inj (Option.some.inj ran)
        exact recorded
      · split at ran
        · obtain ⟨-, rfl⟩ := Prod.mk.inj (Option.some.inj ran)
          exact recorded
        · obtain ⟨-, freed⟩ := destroyCurenv_free ran
          exact recorded.free freed

theorem envSwitch_mail {curenv : Option EnvIdx} {number : Nat} (x : EnvIdx) :
    SameMail (k.envs x) ((envSwitch k curenv number e).envs x) := by
  have frame {k₁ : Kernel npages} {slot : EnvIdx} {env : Env npages}
      (mail : SameMail (k₁.envs slot) env) :
      SameMail (k₁.envs x) ((k₁.setEnv slot env).envs x) := by
    rw [setEnv_apply]
    split
    · rename_i same
      rw [same]
      exact mail
    · exact ⟨rfl, rfl, rfl⟩
  have mark {k₁ : Kernel npages} {slot : EnvIdx} {status : EnvStatus} :
      SameMail (k₁.envs x) ((k₁.setStatus slot status).envs x) := frame ⟨rfl, rfl, rfl⟩
  have chain {env env' env'' : Env npages} (first : SameMail env env') (second : SameMail env' env'') :
      SameMail env env'' :=
    ⟨second.recving.trans first.recving, second.value.trans first.value,
      second.sender.trans first.sender⟩
  unfold envSwitch
  split
  · exact frame ⟨rfl, rfl, rfl⟩
  · refine chain (chain ?_ mark) (frame ⟨rfl, rfl, rfl⟩)
    cases curenv with
    | none => exact ⟨rfl, rfl, rfl⟩
    | some old =>
      simp only
      split
      · exact mark
      · exact ⟨rfl, rfl, rfl⟩

theorem Recorded.run {log : List IpcEvent} (recorded : Recorded k log)
    (curenv : Option EnvIdx) (number : Nat) (live : k.Live e) (awake : (k.envs e).envStatus ≠ .notRunnable) :
    Recorded (envSwitch k curenv number e) (log ++ [.runs e]) ∧ Noted (log ++ [.runs e]) e := by
  obtain ⟨phase, known, agrees⟩ := recorded e
  have ready : phase ≠ .waiting := fun waits => awake ((agrees live).waiting waits).2
  have idle : (k.envs e).envIpcRecving = false := (agrees live).idle ready
  -- The phase in which the environment runs, and the message it has then.
  obtain ⟨next, runs, noted, message⟩ : ∃ next, phase.advance (.runs e) = some next ∧
      (next = .ready ∨ ∃ message, next = .reads message) ∧
      ∀ message, next = .reads message → phase = .delivered message ∨ phase = .reads message := by
    cases phase with
    | ready => exact ⟨_, rfl, .inl rfl, nofun⟩
    | waiting => exact absurd rfl ready
    | delivered message =>
      exact ⟨_, rfl, .inr ⟨message, rfl⟩, fun _ same => .inl (by rw [Phase.reads.inj same])⟩
    | reads message => exact ⟨_, rfl, .inr ⟨message, rfl⟩, fun _ same => .inr same⟩
  have known' : phaseOf e (log ++ [.runs e]) = some next := (phaseOf_own known rfl).trans runs
  refine ⟨fun x => ?_, ?_⟩
  · by_cases self : x = e
    · subst self
      refine ⟨next, known', fun _ => ?_⟩
      have mail := @envSwitch_mail npages k x curenv number x
      refine ⟨?_, fun _ => mail.recving.trans idle, fun given holds => ?_⟩
      · intro waits
        rcases noted with rfl | ⟨kept, rfl⟩ <;> cases waits
      · have reads : next = .reads given := by
          rcases noted with rfl | ⟨kept, rfl⟩ <;> rcases holds with none | same
          · cases none
          · cases same
          · cases none
          · exact same
        obtain ⟨value, sender⟩ := (agrees live).content given (message given reads)
        exact ⟨mail.value.trans value, mail.sender.trans sender⟩
    · obtain ⟨other, known, agrees⟩ := recorded x
      refine ⟨other, phaseOf_other known (Ne.symm self), fun there => ?_⟩
      obtain ⟨pml4e, status⟩ := @envSwitch_spec npages e k curenv number x
      rw [Kernel.Live, pml4e] at there
      refine (agrees there).congr (envSwitch_mail x) fun waiting => ?_
      have waits : other = .waiting := by
        by_contra awake
        rw [(agrees there).idle awake] at waiting
        cases waiting
      have blocked := ((agrees there).waiting waits).2
      have stopped : ¬ (curenv = some x ∧ (k.envs x).envStatus = .running) := by
        rw [blocked]
        exact fun both => by cases both.2
      rw [status, if_neg self, if_neg stopped, ite_self]
  · rcases noted with rfl | ⟨kept, rfl⟩
    · exact .inl known'
    · exact .inr ⟨kept, known'⟩

end Jos
