import Jos.Processors.Switch

/-! One kernel entry of a processor, and what it does to the environments that
other processors execute. -/

set_option autoImplicit false

namespace Jos

open Function

variable {npages ncpu : Nat} {s s' : Machine npages ncpu} {k k' : Kernel npages} {c e : EnvIdx}
  {call : Syscall} {outcome : Outcome} {entry : Entry ncpu} {busy : EnvIdx → Prop}

theorem Fate.congr {k'' : Kernel npages} (fate : Fate k c k' call outcome e)
    (pml4e : (k''.envs e).envPml4e = (k'.envs e).envPml4e)
    (status : (k''.envs e).envStatus = (k'.envs e).envStatus) : Fate k c k'' call outcome e := by
  cases fate with
  | same space kept => exact .same (pml4e.trans space) (status.trans kept)
  | waits self yields space now => exact .waits self yields (pml4e.trans space) (status.trans now)
  | woken send found waiting space now =>
    exact .woken send found waiting (pml4e.trans space) (status.trans now)
  | born dead now => exact .born dead (status.trans now)
  | marked set found low high space now =>
    exact .marked set found low high (pml4e.trans space) (status.trans now)
  | dying destroy found running other space now =>
    exact .dying destroy found running other (pml4e.trans space) (status.trans now)
  | freed why dead now =>
    refine .freed why ?_ (status.trans now)
    rw [Kernel.Live, pml4e]
    exact dead

theorem setTf_fields (tf : Trapframe) (x : EnvIdx) :
    ((k.setEnv c { k.envs c with envTf := tf }).envs x).envPml4e = (k.envs x).envPml4e ∧
    ((k.setEnv c { k.envs c with envTf := tf }).envs x).envStatus = (k.envs x).envStatus := by
  unfold Kernel.setEnv
  by_cases same : x = c
  · subst same
    simp only [update_self, and_self]
  · simp only [update_of_ne same, and_self]

structure Dispatched (k : Kernel npages) (c : EnvIdx) (k' : Kernel npages) (call : Syscall)
    (outcome : Outcome) (exit : Exit) : Prop where
  listed : k'.Listed
  fate : ∀ x, Fate k c k' call outcome x
  exits : exit = .toSchedAfterExit ↔ outcome = .exits
  user : exit = .toUser → (k'.envs c).envStatus = (k.envs c).envStatus
  yields : outcome = .yields → exit = .toSched
  gone : outcome = .exits → (k'.envs c).envStatus = .free

theorem Effect.gone (effect : Effect k c k' call outcome) (exits : outcome = .exits) :
    (k'.envs c).envStatus = .free := by
  have freed {k₁ : Kernel npages} (ran : envFree k₁ c = some k') :
      (k'.envs c).envStatus = .free := by
    rw [(envFree_envs ran).2.2, update_self]
  cases effect with
  | @destroy envid e found idle ran =>
    by_cases self : c = e
    · subst self
      exact freed ran
    · rw [if_neg self] at exits
      cases exits
  | denied _ ran => exact freed ran
  | _ => cases exits

theorem trapDispatch_dispatched {exit : Exit} {ambient : Ambient} (listed : k.Listed)
    (live : k.Live c) (ran : trapDispatch k c ambient = some (exit, k')) :
    ∃ call outcome, ((k.envs c).envTf.tfTrapno.toNat = tSyscall ∧ call = (k.envs c).envTf.request ∨
      call = .noSys) ∧ Dispatched k c k' call outcome exit := by
  have save {k₁ : Kernel npages} (listed : k₁.Listed) (tf : Trapframe) :
      (k₁.setEnv c { k₁.envs c with envTf := tf }).Listed :=
    listed.setEnv ⟨rfl, rfl, rfl, rfl, fun _ => rfl⟩
  have destroyed {m : Pmap npages} (freed : envFree (k.setPmap m) c = some k') :
      ∃ call outcome, ((k.envs c).envTf.tfTrapno.toNat = tSyscall ∧
        call = (k.envs c).envTf.request ∨ call = .noSys) ∧
        Dispatched k c k' call outcome .toSchedAfterExit := by
    have envs := (envFree_envs freed).2.2
    refine ⟨.noSys, .exits, .inr rfl, (listed.setPmap m).free freed, fun x => ?_,
      iff_of_true rfl rfl, by simp, by simp, fun _ => by rw [envs, update_self]⟩
    by_cases same : x = c
    · subst same
      refine .freed (.inl ⟨rfl, rfl⟩) ?_ ?_
      · rw [Kernel.Live, envs, update_self]
        exact not_not.mpr rfl
      · rw [envs, update_self]
    · refine .same ?_ ?_ <;> rw [envs, update_of_ne same] <;> rfl
  have quiet {exit : Exit} (user : exit ≠ .toSchedAfterExit) (equal : k' = k) :
      ∃ call outcome, ((k.envs c).envTf.tfTrapno.toNat = tSyscall ∧
        call = (k.envs c).envTf.request ∨ call = .noSys) ∧ Dispatched k c k' call outcome exit := by
    subst equal
    exact ⟨.noSys, .returns 0, .inr rfl, listed, fun x => .same rfl rfl,
      iff_of_false user (by simp), fun _ => rfl, by simp, by simp⟩
  unfold trapDispatch at ran
  simp only at ran
  split at ran
  · obtain ⟨m, ⟨rfl, freed⟩ | ⟨rfl, tf, rfl⟩⟩ := pageFaultHandler_cases ran
    · exact destroyed freed
    · refine ⟨.noSys, .returns 0, .inr rfl, save (listed.setPmap m) tf, fun x => ?_,
        iff_of_false (by simp) (by simp), fun _ => (setTf_fields (k := k.setPmap m) tf c).2, by simp,
        (by simp)⟩
      exact .same (setTf_fields (k := k.setPmap m) tf x).1 (setTf_fields (k := k.setPmap m) tf x).2
  · split at ran
    · rename_i trapno
      simp only [Option.bind_eq_bind, Option.bind_eq_some_iff] at ran
      obtain ⟨⟨outcome, k₁⟩, called, ran⟩ := ran
      have effect := syscall_effect called
      refine ⟨_, outcome, .inl ⟨trapno, rfl⟩, ?_⟩
      have after := listed.effect live effect
      cases outcome with
      | returns value =>
        cases ran
        exact ⟨save after _, fun x => (effect.fate listed x).congr (setTf_fields _ x).1
          (setTf_fields _ x).2, iff_of_false (by simp) (by simp), by simp, by simp, by simp⟩
      | yields =>
        cases ran
        exact ⟨after, effect.fate listed, iff_of_false (by simp) (by simp), by simp, fun _ => rfl, by simp⟩
      | exits =>
        cases ran
        exact ⟨after, effect.fate listed, iff_of_true rfl rfl, by simp, by simp, effect.gone⟩
    · split at ran
      · obtain ⟨rfl, rfl⟩ := Prod.mk.inj (Option.some.inj ran)
        exact quiet (by simp) rfl
      · split at ran
        · obtain ⟨rfl, rfl⟩ := Prod.mk.inj (Option.some.inj ran)
          exact quiet (by simp) rfl
        · obtain ⟨rfl, freed⟩ := destroyCurenv_free ran
          exact destroyed freed

theorem trapDispatch_returns {ambient : Ambient} {value : Int}
    (trapno : (k.envs c).envTf.tfTrapno.toNat = tSyscall)
    (called : syscall k c ambient (k.envs c).envTf.request = some (.returns value, k')) :
    ∃ tf, trapDispatch k c ambient =
      some (.toTrap, k'.setEnv c { k'.envs c with envTf := tf }) := by
  have other : ¬ tSyscall = tPgflt := by decide
  unfold trapDispatch
  simp only [trapno, if_neg other, if_true, Option.bind_eq_bind]
  unfold Trapframe.request at called
  simp only [called, Option.bind_some]
  exact ⟨_, rfl⟩

/-- A call that does not disturb environments that execute: it sets no status of
them but running and dying, it does not destroy one that is dying on another
processor, and it sends nothing to one. -/
def SafeCall (k : Kernel npages) (busy : EnvIdx → Prop) (c : EnvIdx) : Syscall → Prop
  | .envSetStatus envid status => ∀ e, envid2env k c envid true = some e → busy e →
      status.toInt < 0 ∨ 4 < status.toInt ∨ status = 1 ∨ status = 3
  | .envDestroy envid => ∀ e, envid2env k c envid true = some e → busy e → e ≠ c →
      (k.envs e).envStatus ≠ .dying
  | .ipcTrySend envid _ _ _ => ∀ e, envid2env k c envid false = some e → busy e →
      (k.envs e).envIpcRecving = false
  | _ => True

/-- The entry is not a call that disturbs an environment that executes. -/
def Machine.Safe (s : Machine npages ncpu) (entry : Entry ncpu) : Prop :=
  ∀ c, s.curenv entry.cpu = some c → s.status c ≠ .dying →
    entry.tf.tfTrapno.toNat = tSyscall → SafeCall s.kernel s.Busy c entry.tf.request

theorem envid2env_setTf {tf : Trapframe} {curenv : EnvIdx} {envid : EnvId} {checkperm : Bool} :
    envid2env (k.setEnv c { k.envs c with envTf := tf }) curenv envid checkperm =
      envid2env k curenv envid checkperm := by
  have fields (x : EnvIdx) :
      ((k.setEnv c { k.envs c with envTf := tf }).envs x).envStatus = (k.envs x).envStatus ∧
      ((k.setEnv c { k.envs c with envTf := tf }).envs x).envId = (k.envs x).envId ∧
      ((k.setEnv c { k.envs c with envTf := tf }).envs x).envParentId =
        (k.envs x).envParentId := by
    unfold Kernel.setEnv
    by_cases same : x = c
    · subst same
      simp only [update_self, and_self]
    · simp only [update_of_ne same, and_self]
  unfold envid2env
  simp only [(fields _).1, (fields _).2.1, (fields _).2.2]

theorem SafeCall.setTf {tf : Trapframe} (safe : SafeCall k busy c call) :
    SafeCall (k.setEnv c { k.envs c with envTf := tf }) busy c call := by
  cases call with
  | envSetStatus envid status =>
    intro e found
    rw [envid2env_setTf] at found
    exact safe e found
  | envDestroy envid =>
    intro e found used differs
    rw [envid2env_setTf] at found
    rw [(setTf_fields tf e).2]
    exact safe e found used differs
  | ipcTrySend envid value srcva perm =>
    intro e found used
    rw [envid2env_setTf] at found
    have waiting := safe e found used
    unfold Kernel.setEnv
    by_cases same : e = c
    · subst same
      simpa only [update_self] using waiting
    · simpa only [update_of_ne same] using waiting
  | _ => trivial

/-- A safe call leaves an executing environment running or dying, unless it is
the caller, which may wait or end. -/
theorem Fate.executing (fate : Fate k c k' call outcome e) (safe : SafeCall k busy c call)
    (used : busy e) (live : k.Live e)
    (status : (k.envs e).envStatus = .running ∨ (k.envs e).envStatus = .dying) :
    (k'.Live e ∧ ((k'.envs e).envStatus = .running ∨ (k'.envs e).envStatus = .dying)) ∨
    (e = c ∧ outcome = .yields ∧ (k'.envs e).envStatus = .notRunnable) ∨
    (e = c ∧ outcome = .exits) := by
  have still (pml4e : (k'.envs e).envPml4e = (k.envs e).envPml4e) : k'.Live e := by
    rw [Kernel.Live, pml4e]
    exact live
  cases fate with
  | same pml4e kept => exact .inl ⟨still pml4e, by rw [kept]; exact status⟩
  | waits self yields _ now => exact .inr (.inl ⟨self, yields, now⟩)
  | woken send found waiting =>
    subst send
    rw [safe e found used] at waiting
    cases waiting
  | born dead => exact absurd live dead
  | marked set found low high pml4e now =>
    subst set
    rcases safe e found used with negative | large | rfl | rfl
    · exact absurd negative (not_lt.mpr low)
    · exact absurd large (not_lt.mpr high)
    · exact .inl ⟨still pml4e, .inr now⟩
    · exact .inl ⟨still pml4e, .inl now⟩
  | dying _ _ _ _ pml4e now => exact .inl ⟨still pml4e, .inr now⟩
  | freed why dead =>
    rcases why with ⟨self, exits⟩ | ⟨other, envid, destroy, found, idle⟩
    · exact .inr (.inr ⟨self, exits⟩)
    · subst destroy
      exact absurd (status.resolve_left idle) (safe e found used other)

/-- The three ways through a kernel entry: the processor had no environment, its
environment was dying, or a handler ran for it. -/
inductive Entered (s : Machine npages ncpu) (entry : Entry ncpu) (s' : Machine npages ncpu) :
    Prop where
  | idle : s.curenv entry.cpu = none → schedYield s entry.cpu = some s' → Entered s entry s'
  | dying {c : EnvIdx} {k' : Kernel npages} : s.curenv entry.cpu = some c → s.status c = .dying →
      envFree s.kernel c = some k' →
      schedYield ((s.setKernel k').setCurenv entry.cpu none) entry.cpu = some s' →
      Entered s entry s'
  | handled {c : EnvIdx} {k' : Kernel npages} {call : Syscall} {outcome : Outcome} {exit : Exit} :
      s.curenv entry.cpu = some c → s.status c ≠ .dying →
      (entry.tf.tfTrapno.toNat = tSyscall ∧ call = entry.tf.request ∨ call = .noSys) →
      trapDispatch (s.kernel.setEnv c { s.kernel.envs c with envTf := entry.tf }) c entry.ambient =
        some (exit, k') →
      Dispatched (s.kernel.setEnv c { s.kernel.envs c with envTf := entry.tf }) c k' call outcome
        exit →
      leave (s.setKernel k') entry.cpu c exit = some s' → Entered s entry s'

theorem Machine.Exclusive.entered (exclusive : s.Exclusive) (ran : trap s entry = some s') :
    Entered (s.setCpuStatus entry.cpu .started) entry s' ∧
      (s.setCpuStatus entry.cpu .started).Exclusive := by
  have begun : (s.setCpuStatus entry.cpu .started).Exclusive := by
    refine ⟨exclusive.listed, fun first second => ?_, fun first => ?_, fun first => ?_⟩
    · rw [Machine.curenv_setCpuStatus] at first second
      exact exclusive.alone first second
    · rw [Machine.curenv_setCpuStatus] at first
      exact exclusive.live first
    · rw [Machine.curenv_setCpuStatus] at first
      exact exclusive.busy first
  refine ⟨?_, begun⟩
  unfold trap at ran
  simp only at ran
  generalize s.setCpuStatus entry.cpu .started = s at begun ran
  cases here : s.curenv entry.cpu with
  | none =>
    rw [here] at ran
    exact .idle here ran
  | some c =>
    rw [here] at ran
    simp only [trapUser] at ran
    split at ran
    · rename_i dying
      simp only [Option.bind_eq_bind, Option.bind_eq_some_iff] at ran
      obtain ⟨k', freed, ran⟩ := ran
      exact .dying here dying freed ran
    · rename_i running
      simp only [Option.bind_eq_bind, Option.bind_eq_some_iff] at ran
      obtain ⟨⟨exit, k'⟩, handled, left⟩ := ran
      have live : (s.kernel.setEnv c { s.kernel.envs c with envTf := entry.tf }).Live c := by
        rw [Kernel.Live, (setTf_fields entry.tf c).1]
        exact begun.live here
      have listed : (s.kernel.setEnv c { s.kernel.envs c with envTf := entry.tf }).Listed :=
        begun.listed.setEnv ⟨rfl, rfl, rfl, rfl, fun _ => rfl⟩
      obtain ⟨call, outcome, asked, ended⟩ := trapDispatch_dispatched listed live handled
      have frame : ((s.kernel.setEnv c
          { s.kernel.envs c with envTf := entry.tf }).envs c).envTf = entry.tf := by
        simp [Kernel.setEnv]
      rw [frame] at asked
      exact .handled here running asked handled ended left

end Jos
