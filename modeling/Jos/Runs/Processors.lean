import Jos.Processors.Entry
import Jos.Runs.Table

/-! Runs of several processors: no environment executes on two of them, and none
is freed while another processor executes it. -/

set_option autoImplicit false

namespace Jos

open Foundation

variable {npages ncpu : Nat} {platform : Platform npages} {s s' : Machine npages ncpu}
  {k k' : Kernel npages} {cpu : Fin ncpu} {c e : EnvIdx} {call : Syscall} {outcome : Outcome}
  {entry : Entry ncpu} {busy : EnvIdx → Prop}

/-- The machine after the boot and the calls of `env_create`: no processor
executes an environment yet. -/
def Machine.Started (platform : Platform npages) (s : Machine npages ncpu) : Prop :=
  (∃ k events, boot platform = some k ∧
    Along kernelStep (fun _ event => ∃ binary type, event = .create binary type) k events
      s.kernel) ∧
  (∀ cpu, s.curenv cpu = none) ∧ s.envCounter = 0

/-- A handler, run for one processor, leaves the environments of the others
executing. -/
theorem Machine.Exclusive.dispatched {tf : Trapframe} {exit : Exit} (exclusive : s.Exclusive)
    (here : s.curenv cpu = some c) (running : s.status c ≠ .dying)
    (safe : SafeCall s.kernel s.Busy c call)
    (ended : Dispatched (s.kernel.setEnv c { s.kernel.envs c with envTf := tf }) c k' call outcome
      exit) :
    (s.setKernel k').Leaving cpu ∧ (exit ≠ .toSchedAfterExit → k'.Live c ∧
      ((k'.envs c).envStatus = .running ∨ (k'.envs c).envStatus = .dying) ∨
        exit = .toSched ∧ (k'.envs c).envStatus = .notRunnable) := by
  have executing {slot : Fin ncpu} {x : EnvIdx} (there : s.curenv slot = some x) := by
    refine (ended.fate x).executing safe.setTf ⟨slot, there⟩ ?_ ?_
    · rw [Kernel.Live, (setTf_fields tf x).1]
      exact exclusive.live there
    · rw [(setTf_fields tf x).2]
      exact exclusive.busy there
  have apart {slot : Fin ncpu} {x : EnvIdx} (differs : slot ≠ cpu)
      (there : s.curenv slot = some x) : x ≠ c := by
    rintro rfl
    exact differs (exclusive.alone there here)
  refine ⟨⟨ended.listed, exclusive.alone, fun {slot x} differs there => ?_,
    fun {slot x} differs there => ?_⟩, fun stays => ?_⟩
  · rcases executing there with ⟨live, -⟩ | ⟨self, -⟩ | ⟨self, -⟩
    · exact live
    · exact absurd self (apart differs there)
    · exact absurd self (apart differs there)
  · rcases executing there with ⟨-, status⟩ | ⟨self, -⟩ | ⟨self, -⟩
    · exact status
    · exact absurd self (apart differs there)
    · exact absurd self (apart differs there)
  · rcases executing here with both | ⟨-, yields, waits⟩ | ⟨-, exits⟩
    · exact .inl both
    · exact .inr ⟨ended.yields yields, waits⟩
    · exact absurd (ended.exits.mpr exits) stays

theorem Machine.Leaving.clear (leaving : s.Leaving cpu) : (s.setCurenv cpu none).Leaving cpu := by
  have left {slot : Fin ncpu} {x : EnvIdx} (there : (s.setCurenv cpu none).curenv slot = some x) :
      slot ≠ cpu ∧ s.curenv slot = some x := by
    rw [Machine.curenv_setCurenv] at there
    split at there
    · cases there
    · rename_i differs
      exact ⟨differs, there⟩
  exact ⟨leaving.listed, fun first second => leaving.alone (left first).2 (left second).2,
    fun differs there => leaving.live differs (left there).2,
    fun differs there => leaving.busy differs (left there).2⟩

theorem Machine.Exclusive.freed (exclusive : s.Exclusive) (here : s.curenv cpu = some c)
    (ran : envFree s.kernel c = some k') : ((s.setKernel k').setCurenv cpu none).Leaving cpu := by
  have envs := (envFree_envs ran).2.2
  have other {slot : Fin ncpu} {x : EnvIdx} (differs : slot ≠ cpu)
      (there : s.curenv slot = some x) : k'.envs x = s.kernel.envs x := by
    have apart : x ≠ c := by
      rintro rfl
      exact differs (exclusive.alone there here)
    rw [envs, Function.update_of_ne apart]
  refine Machine.Leaving.clear ⟨exclusive.listed.free ran, exclusive.alone,
    fun differs there => ?_, fun differs there => ?_⟩
  · change (k'.envs _).envPml4e ≠ none
    rw [other differs there]
    exact exclusive.live there
  · change (k'.envs _).envStatus = _ ∨ (k'.envs _).envStatus = _
    rw [other differs there]
    exact exclusive.busy there

theorem clear_curenv : (s.setCurenv cpu none).curenv cpu = none := by
  rw [Machine.curenv_setCurenv, if_pos rfl]

theorem Machine.busy_setCpuStatus {status : CpuStatus} :
    (s.setCpuStatus cpu status).Busy = s.Busy := by
  funext x
  simp only [Machine.Busy, Machine.curenv_setCpuStatus]

theorem Machine.Exclusive.trap (exclusive : s.Exclusive) (safe : s.Safe entry)
    (ran : Jos.trap s entry = some s') : s'.Exclusive := by
  obtain ⟨entered, begun⟩ := exclusive.entered ran
  have safe : (s.setCpuStatus entry.cpu .started).Safe entry := by
    intro c here
    rw [Machine.busy_setCpuStatus]
    rw [Machine.curenv_setCpuStatus] at here
    exact safe c here
  generalize s.setCpuStatus entry.cpu .started = s at begun safe entered
  cases entered with
  | idle here yields => exact (begun.leaving _).yield (by rw [here]; exact nofun) yields
  | dying here _ freed yields =>
    exact (begun.freed here freed).yield (by rw [clear_curenv]; exact nofun) yields
  | @handled c k' call outcome exit here running asked _ ended left =>
    have permitted : SafeCall s.kernel s.Busy c call := by
      rcases asked with ⟨trapno, rfl⟩ | rfl
      · exact safe c here running trapno
      · trivial
    obtain ⟨leaving, self⟩ := begun.dispatched here running permitted ended
    have still : (s.setKernel k').curenv entry.cpu = some c := here
    cases exit with
    | toTrap =>
      simp only [leave] at left
      rcases self nofun with ⟨live', status⟩ | ⟨none, -⟩
      · split at left
        · rename_i runs
          cases left
          exact leaving.resume still live' (.inl runs)
        · refine leaving.yield (fun x there => ?_) left
          cases still.symm.trans there
          rcases status with now | now <;>
            (change (k'.envs _).envStatus ≠ _; rw [now]; exact nofun)
      · cases none
    | toUser =>
      simp only [leave] at left
      cases left
      rcases self nofun with ⟨live', status⟩ | ⟨none, -⟩
      · exact leaving.resume still live' status
      · cases none
    | toSched =>
      simp only [leave] at left
      refine leaving.yield (fun x there => ?_) left
      cases still.symm.trans there
      rcases self nofun with ⟨-, now | now⟩ | ⟨-, now⟩ <;>
        (change (k'.envs _).envStatus ≠ _; rw [now]; exact nofun)
    | toSchedAfterExit =>
      simp only [leave] at left
      exact leaving.clear.yield (by rw [clear_curenv]; exact nofun) left

theorem Machine.Started.exclusive (started : s.Started platform) : s.Exclusive := by
  obtain ⟨⟨k, events, booted, along⟩, halted, -⟩ := started
  have none {cpu : Fin ncpu} {e : EnvIdx} (here : s.curenv cpu = some e) : False := by
    rw [halted] at here
    cases here
  refine ⟨?_, fun here => (none here).elim, fun here => (none here).elim,
    fun here => (none here).elim⟩
  have tabled : s.kernel.Tabled := by
    refine along.preserves Kernel.Tabled ?_ fun before event after tabled created ran => ?_
    · obtain ⟨g, booted⟩ := boot_booted booted
      exact booted.tabled
    · obtain ⟨binary, type, rfl⟩ := created
      have keeps : KeepsStatus before (.create binary type) := trivial
      exact tabled.step keeps ran
  exact tabled.listed

/-- At most one processor executes an environment, and the scheduler of no other
processor can select it. -/
def Machine.RunsOnce (s : Machine npages ncpu) : Prop :=
  (∀ cpu other e, s.curenv cpu = some e → s.curenv other = some e → cpu = other) ∧
  ∀ cpu e, s.curenv cpu = some e → s.status e = .running ∨ s.status e = .dying

theorem sample_started : ∃ (s : Machine 4096 2) (e : EnvIdx), s.Started sample ∧
    (∀ x, s.status x = .runnable ↔ x = e) ∧ ∀ x, s.status x ≠ .running := by
  obtain ⟨k, g, ran, booted, room⟩ := sample_booted
  have enough : 10 + 9 ≤ g.free.length := by omega
  obtain ⟨e, k', created, runnable, others⟩ :=
    (booted.fresh enough).create ⟨0, booted.dead⟩ 0
  have stepped : kernelStep k (.create ⟨[], 0⟩ .user) = some k' := created
  have status (x : EnvIdx) : (k'.envs x).envStatus = if x = e then .runnable else .free := by
    by_cases self : x = e
    · rw [if_pos self, self, runnable]
    · rw [if_neg self, others x self, booted.sound.idle (not_not.mp booted.dead)]
  refine ⟨⟨k', fun _ => ⟨.unused, none⟩, 0⟩, e,
    ⟨⟨k, _, ran, Along.nil.snoc ⟨_, _, rfl⟩ stepped⟩, fun _ => rfl, rfl⟩, fun x => ?_, fun x => ?_⟩
  · change (k'.envs x).envStatus = _ ↔ _
    rw [status]
    split <;> simp_all
  · change (k'.envs x).envStatus ≠ _
    rw [status]
    split <;> exact nofun

def tick (cpu : Fin ncpu) : Entry ncpu :=
  ⟨cpu, { (default : Trapframe) with tfTrapno := 32 }, ⟨none, 0, none⟩⟩

/-- The frame of `sys_env_set_status(0, status)`. -/
def setStatusFrame (status : BitVec 64) : Trapframe :=
  { (default : Trapframe) with
    tfTrapno := 48
    tfRegs := { (default : PushRegs) with regRax := 8, regRdx := 0, regRcx := status } }

theorem setStatusFrame_request (status : BitVec 64) :
    (setStatusFrame status).request = .envSetStatus 0 (status.setWidth 32) := rfl

theorem trap_idle {cpu : Fin ncpu} (tf : Trapframe) (ambient : Ambient)
    (idle : s.curenv cpu = none) (only : ∀ x, s.status x = .runnable ↔ x = e) :
    trap s ⟨cpu, tf, ambient⟩ = some
      (envRun { s.setCpuStatus cpu .started with envCounter := e } cpu e) := by
  have idle : (s.setCpuStatus cpu .started).curenv cpu = none := by
    rw [Machine.curenv_setCpuStatus]
    exact idle
  have only : ∀ x, (s.setCpuStatus cpu .started).status x = .runnable ↔ x = e := only
  unfold trap
  simp only [idle]
  exact schedYield_only only

theorem trap_setStatus {cpu : Fin ncpu} (code : BitVec 64) (status : EnvStatus)
    (here : s.curenv cpu = some c) (running : s.status c = .running)
    (set : ∀ k : Kernel npages, syscall k c ⟨none, 0, none⟩ (.envSetStatus 0 (code.setWidth 32)) =
      some (.returns 0, k.setStatus c status)) :
    ∃ k', trap s ⟨cpu, setStatusFrame code, ⟨none, 0, none⟩⟩ =
        leave ((s.setCpuStatus cpu .started).setKernel k') cpu c .toTrap ∧
      ∀ x, (k'.envs x).envStatus = if x = c then status else s.status x := by
  have here : (s.setCpuStatus cpu .started).curenv cpu = some c := by
    rw [Machine.curenv_setCpuStatus]
    exact here
  have alive : ¬ (s.setCpuStatus cpu .started).status c = .dying := by
    change s.status c ≠ .dying
    rw [running]
    exact nofun
  have same (x : EnvIdx) : s.status x = (s.setCpuStatus cpu .started).status x := rfl
  simp only [same, trap]
  generalize s.setCpuStatus cpu .started = s at here alive
  set k := s.kernel.setEnv c { s.kernel.envs c with envTf := setStatusFrame code } with saved
  have frame : (k.envs c).envTf = setStatusFrame code := by simp [saved, Kernel.setEnv]
  have called : syscall k c ⟨none, 0, none⟩ (k.envs c).envTf.request =
      some (.returns 0, k.setStatus c status) := by
    rw [frame, setStatusFrame_request]
    exact set k
  obtain ⟨tf, handled⟩ := trapDispatch_returns (by rw [frame]; rfl) called
  refine ⟨(k.setStatus c status).setEnv c { (k.setStatus c status).envs c with envTf := tf }, ?_,
    fun x => ?_⟩
  · have handling : trapUser s cpu c (setStatusFrame code) ⟨none, 0, none⟩ =
        (trapDispatch k c ⟨none, 0, none⟩).bind
          fun left => leave (s.setKernel left.2) cpu c left.1 := by
      unfold trapUser
      rw [if_neg alive]
      rfl
    simp only [here, handling, handled, Option.bind_some]
  · rw [(setTf_fields tf x).2]
    by_cases self : x = c
    · subst self
      simp [Kernel.setStatus, Kernel.setEnv]
    · simp [Kernel.setStatus, Kernel.setEnv, self, saved, Machine.status]

/-- An environment that marks itself runnable is taken up again by its own
processor, without a change of its status. -/
theorem trap_runnable {cpu : Fin ncpu} (here : s.curenv cpu = some c)
    (running : s.status c = .running) (others : ∀ x, x ≠ c → s.status x ≠ .runnable) :
    ∃ s', trap s ⟨cpu, setStatusFrame 2, ⟨none, 0, none⟩⟩ = some s' ∧
      s'.curenv cpu = some c ∧ (∀ other, other ≠ cpu → s'.curenv other = s.curenv other) ∧
      ∀ x, s'.status x = .runnable ↔ x = c := by
  obtain ⟨k', handling, status⟩ := trap_setStatus 2 .runnable here running fun _ => rfl
  have here : (s.setCpuStatus cpu .started).curenv cpu = some c := by
    rw [Machine.curenv_setCpuStatus]
    exact here
  have same (other : Fin ncpu) : s.curenv other = (s.setCpuStatus cpu .started).curenv other :=
    Machine.curenv_setCpuStatus.symm
  simp only [same]
  have only (x : EnvIdx) : (k'.envs x).envStatus = .runnable ↔ x = c := by
    rw [status]
    by_cases self : x = c
    · simp [self]
    · simpa [self] using others x self
  generalize s.setCpuStatus cpu .started = s at here handling
  have yields : schedYield (s.setKernel k') cpu =
      some (envRun { s.setKernel k' with envCounter := c } cpu c) := schedYield_only only
  have stopped : ¬ (s.setKernel k').status c = .running := by
    change (k'.envs c).envStatus ≠ _
    rw [(only c).mpr rfl]
    exact nofun
  refine ⟨envRun { s.setKernel k' with envCounter := c } cpu c, ?_, ?_, fun other differs => ?_,
    fun x => ?_⟩
  · rw [handling]
    simp only [leave, if_neg stopped]
    exact yields
  · rw [envRun_curenv, if_pos rfl]
  · rw [envRun_curenv, if_neg differs]
    rfl
  · have still : ({ s.setKernel k' with envCounter := c } : Machine npages ncpu).curenv cpu =
        some c := here
    rw [envRun_status, if_pos still]
    exact only x

theorem sample_running : ∃ (s₀ s₁ : Machine 4096 2) (e : EnvIdx), s₀.Started sample ∧
    trap s₀ (tick 0) = some s₁ ∧ s₁.curenv 0 = some e ∧ s₁.curenv 1 = none ∧
    s₁.status e = .running ∧
    ∀ x, x ≠ e → s₁.status x ≠ .runnable ∧ s₁.status x ≠ .running := by
  obtain ⟨s₀, e, started, only, others⟩ := sample_started
  have idle : ({ s₀.setCpuStatus 0 .started with envCounter := e } : Machine 4096 2).curenv 0 =
      none := by
    change (s₀.setCpuStatus 0 .started).curenv 0 = none
    rw [Machine.curenv_setCpuStatus]
    exact started.2.1 0
  have first := trap_idle (tick (0 : Fin 2)).tf (tick (0 : Fin 2)).ambient (started.2.1 0) only
  refine ⟨s₀, _, e, started, first, ?_, ?_, ?_, fun x differs => ?_⟩
  · rw [envRun_curenv, if_pos rfl]
  · rw [envRun_curenv, if_neg (by decide)]
    change (s₀.setCpuStatus 0 .started).curenv 1 = none
    rw [Machine.curenv_setCpuStatus]
    exact started.2.1 1
  · rw [envRun_status, idle, if_neg nofun, if_pos rfl]
  · rw [envRun_status, idle, if_neg nofun, if_neg differs,
      if_neg fun both => absurd both.1 nofun]
    exact ⟨fun runnable => differs ((only x).mp runnable), others x⟩

end Jos
