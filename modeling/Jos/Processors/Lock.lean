import Jos.Kern.Lock
import Jos.Runs.Sound

/-! The big kernel lock brackets every stay of a processor in the kernel. -/

set_option autoImplicit false

namespace Jos

open Foundation Function

variable {npages ncpu : Nat} {s s' : Smp npages ncpu} {c other : Fin ncpu} {spot : Spot ncpu}

/-- What a processor at some place has done to the lock since it entered the
kernel, and whether `cpu_status` says that it is halted. -/
def Spot.Fits : Spot ncpu → List LockCall → CpuStatus → Prop
  | .off, calls, status | .i386Init, calls, status | .mpMain, calls, status
  | .trap (.user _ _), calls, status | .mode (.user _ _), calls, status =>
    calls = [] ∧ status ≠ .halted
  | .trap (.kernel _), calls, status => calls = [] ∧ status = .halted
  | .bootAps _, calls, status | .bootWait _, calls, status | .envCreate _, calls, status
  | .mode (.kernel _), calls, status | .handle _ _, calls, status | .schedYield, calls, status
  | .schedHalt, calls, status | .envRun _, calls, status =>
    calls = [.lock] ∧ status ≠ .halted
  | .user, calls, status => calls = [.lock, .unlock] ∧ status ≠ .halted
  | .halted, calls, status => calls = [.lock, .unlock] ∧ status = .halted
  | .locking next, calls, status => calls = [] ∧ next.Fits [.lock] status
  | .unlocking next, calls, status => calls = [.lock] ∧ next.Fits [.lock, .unlock] status
  | .stopped, calls, _ => calls = [] ∨ calls = [.lock]

theorem Spot.Fits.calls {calls : List LockCall} {status : CpuStatus}
    (fits : spot.Fits calls status) :
    calls = [] ∨ calls = [.lock] ∨ calls = [.lock, .unlock] := by
  cases spot with
  | off | i386Init | mpMain | locking => exact .inl fits.1
  | trap frame =>
    cases frame with
    | user => exact .inl fits.1
    | kernel => exact .inl fits.1
  | mode frame =>
    cases frame with
    | user => exact .inl fits.1
    | kernel => exact .inr (.inl fits.1)
  | user | halted => exact .inr (.inr fits.1)
  | stopped => exact fits.imp id .inl
  | _ => exact .inr (.inl fits.1)

namespace Smp

/-- The processor is between its `lock_kernel` and its `unlock_kernel`. -/
def Between (s : Smp npages ncpu) (c : Fin ncpu) : Prop := (s.calls c).getLast? = some .lock

structure Bracketed (s : Smp npages ncpu) : Prop where
  holding : ∀ c, s.lock.holding c ↔ s.calls c = [.lock]
  fits : ∀ c, (s.spot c).Fits (s.calls c) (s.cpuStatus c)

@[simp] theorem goto_lock {spot : Spot ncpu} : (s.goto c spot).lock = s.lock := rfl
@[simp] theorem goto_calls {spot : Spot ncpu} : (s.goto c spot).calls = s.calls := rfl
@[simp] theorem goto_status {spot : Spot ncpu} :
    (s.goto c spot).cpuStatus other = s.cpuStatus other := rfl

theorem goto_spot : (s.goto c spot).spot other = if other = c then spot else s.spot other := by
  unfold goto
  by_cases same : other = c
  · subst same
    simp
  · simp [same]

theorem record_calls {calls : List LockCall} :
    (s.record c calls).calls other = if other = c then calls else s.calls other := by
  unfold record
  by_cases same : other = c
  · subst same
    simp
  · simp [same]

@[simp] theorem setKernel_status {k : Kernel npages} :
    (s.setKernel k).cpuStatus other = s.cpuStatus other := rfl

@[simp] theorem setCurenv_status {curenv : Option EnvIdx} :
    (s.setCurenv c curenv).cpuStatus other = s.cpuStatus other := by
  unfold setCurenv cpuStatus Machine.setCurenv
  by_cases same : other = c
  · subst same
    simp
  · simp [same]

theorem setCpuStatus_status {status : CpuStatus} :
    (s.setCpuStatus c status).cpuStatus other = if other = c then status else s.cpuStatus other := by
  unfold setCpuStatus cpuStatus Machine.setCpuStatus
  by_cases same : other = c
  · subst same
    simp
  · simp [same]

namespace Bracketed

section

variable (bracketed : s.Bracketed)

include bracketed

/-- A processor that neither locks nor unlocks may move to any place that fits
what it has done. -/
theorem move (lock : s'.lock = s.lock)
    (calls : s'.calls = s.calls) (there : s'.spot = update s.spot c spot)
    (status : ∀ other, other ≠ c → s'.cpuStatus other = s.cpuStatus other)
    (fits : spot.Fits (s.calls c) (s'.cpuStatus c)) : s'.Bracketed := by
  refine ⟨fun other => ?_, fun other => ?_⟩
  · rw [lock, calls]
    exact bracketed.holding other
  · rw [there, calls]
    by_cases same : other = c
    · subst same
      rw [update_self]
      exact fits
    · rw [update_of_ne same, status other same]
      exact bracketed.fits other

theorem goto (fits : spot.Fits (s.calls c) (s.cpuStatus c)) : (s.goto c spot).Bracketed :=
  bracketed.move rfl rfl rfl (fun _ _ => rfl) fits

theorem panic (calls : s.calls c = [] ∨ s.calls c = [.lock]) : (s.panic c).Bracketed :=
  bracketed.move rfl rfl rfl (fun _ _ => rfl) calls

/-- Changes of the kernel data, of `curenv` and of the boot's variables. -/
theorem congr (lock : s'.lock = s.lock) (calls : s'.calls = s.calls)
    (spot : s'.spot = s.spot) (status : ∀ other, s'.cpuStatus other = s.cpuStatus other) :
    s'.Bracketed := by
  refine ⟨fun other => ?_, fun other => ?_⟩
  · rw [lock, calls]
    exact bracketed.holding other
  · rw [spot, calls, status]
    exact bracketed.fits other

theorem setKernel (k : Kernel npages) : (s.setKernel k).Bracketed :=
  bracketed.congr rfl rfl rfl fun _ => rfl

theorem setCurenv (curenv : Option EnvIdx) : (s.setCurenv c curenv).Bracketed :=
  bracketed.congr rfl rfl rfl fun _ => setCurenv_status

theorem spinLock {next : Spot ncpu} (here : s.spot c = .locking next) :
    ¬ s.lock.holding c ∧ (s.spinLock c next).Bracketed := by
  have fits := bracketed.fits c
  rw [here] at fits
  obtain ⟨none_yet, fits⟩ := fits
  have unheld : ¬ s.lock.holding c := by
    rw [bracketed.holding, none_yet]
    exact nofun
  refine ⟨unheld, ?_⟩
  unfold Smp.spinLock
  rw [if_neg unheld]
  split
  · exact bracketed
  · rename_i free
    refine ⟨fun other => ?_, fun other => ?_⟩
    · change Spinlock.holding ⟨true, some c⟩ other ↔ (s.record c _).calls other = _
      rw [record_calls, none_yet]
      by_cases same : other = c
      · subst same
        rw [if_pos rfl]
        exact iff_of_true ⟨rfl, rfl⟩ rfl
      · rw [if_neg same, ← bracketed.holding]
        refine iff_of_false (fun held => same (Option.some.inj held.2).symm) fun held => ?_
        exact free held.1
    · rw [goto_spot]
      change Spot.Fits _ ((s.record c _).calls other) (s.cpuStatus other)
      rw [record_calls, none_yet]
      by_cases same : other = c
      · subst same
        rw [if_pos rfl, if_pos rfl]
        exact fits
      · rw [if_neg same, if_neg same]
        exact bracketed.fits other

theorem spinUnlock {next : Spot ncpu} (here : s.spot c = .unlocking next) :
    s.lock.holding c ∧ (s.spinUnlock c next).Bracketed := by
  have fits := bracketed.fits c
  rw [here] at fits
  obtain ⟨locked, fits⟩ := fits
  have held : s.lock.holding c := (bracketed.holding c).mpr locked
  refine ⟨held, ?_⟩
  unfold Smp.spinUnlock
  rw [if_pos held]
  refine ⟨fun other => ?_, fun other => ?_⟩
  · change Spinlock.holding ⟨false, none⟩ other ↔ (s.record c _).calls other = _
    rw [record_calls, locked]
    by_cases same : other = c
    · subst same
      rw [if_pos rfl]
      exact iff_of_false nofun nofun
    · rw [if_neg same, ← bracketed.holding]
      refine iff_of_false nofun fun theirs => same ?_
      exact Option.some.inj (theirs.2.symm.trans held.2)
  · rw [goto_spot]
    change Spot.Fits _ ((s.record c _).calls other) (s.cpuStatus other)
    rw [record_calls, locked]
    by_cases same : other = c
    · subst same
      rw [if_pos rfl, if_pos rfl]
      exact fits
    · rw [if_neg same, if_neg same]
      exact bracketed.fits other

end

section
variable (bracketed : s.Bracketed) (locked : s.calls c = [.lock])
  (awake : s.cpuStatus c ≠ .halted)
include bracketed locked awake

theorem trapEnd : (s.trapEnd c).Bracketed := by
  unfold Smp.trapEnd
  split
  · split
    · exact bracketed.goto ⟨locked, awake⟩
    · exact bracketed.goto ⟨locked, awake⟩
  · exact bracketed.goto ⟨locked, awake⟩

theorem leave {curenv : EnvIdx} {exit : Exit} : (s.leave c curenv exit).Bracketed := by
  cases exit with
  | toTrap => exact bracketed.trapEnd locked awake
  | toUser => exact bracketed.goto ⟨locked, awake⟩
  | toSched => exact bracketed.goto ⟨locked, awake⟩
  | toSchedAfterExit =>
    exact (bracketed.setCurenv none).goto ⟨locked, by rwa [setCurenv_status]⟩

theorem handle {tf : Trapframe} {ambient : Ambient} : (s.handle c tf ambient).Bracketed := by
  unfold Smp.handle
  split
  · exact bracketed.panic (.inr locked)
  · split
    · split
      · exact bracketed.panic (.inr locked)
      · exact ((bracketed.setKernel _).setCurenv none).goto
          ⟨locked, by rwa [setCurenv_status, setKernel_status]⟩
    · dsimp only
      split
      · exact bracketed.panic (.inr locked)
      · rename_i exit k _
        exact (bracketed.setKernel k).leave locked awake

theorem woken {trapno : Nat} : (s.woken c trapno).Bracketed := by
  unfold Smp.woken
  split
  · exact bracketed.trapEnd locked awake
  · split
    · exact bracketed.goto ⟨locked, awake⟩
    · exact bracketed.panic (.inr locked)

end

section

variable (bracketed : s.Bracketed)

include bracketed

/-- `lapic_startap` for a processor that is off. -/
theorem startap : (if s.spot c = .off then s.goto c .mpMain else s).Bracketed := by
  split
  · rename_i off
    have fits := bracketed.fits c
    rw [off] at fits
    exact bracketed.goto fits
  · exact bracketed

theorem advance (stepped : s.advance c = some s') : s'.Bracketed := by
  have fits := bracketed.fits c
  unfold Smp.advance at stepped
  cases here : s.spot c with
  | off | user | halted | stopped =>
    rw [here] at stepped
    cases stepped
  | i386Init =>
    rw [here] at stepped fits
    cases stepped
    exact bracketed.goto ⟨fits.1, rfl, fits.2⟩
  | bootAps next =>
    rw [here] at stepped fits
    simp only at stepped
    split at stepped
    · split at stepped
      · cases stepped
        exact bracketed.goto fits
      · rename_i bound differs
        cases stepped
        refine bracketed.startap.goto ?_
        split
        · exact fits
        · exact fits
    · cases stepped
      exact bracketed.goto fits
  | bootWait other =>
    rw [here] at stepped fits
    simp only at stepped
    split at stepped
    · cases stepped
      exact bracketed.goto fits
    · cases stepped
      exact bracketed
  | envCreate binaries =>
    rw [here] at stepped fits
    cases binaries with
    | nil =>
      cases stepped
      exact bracketed.goto fits
    | cons first rest =>
      simp only at stepped
      split at stepped
      · cases stepped
        exact bracketed.panic (.inr fits.1)
      · rename_i k _
        cases stepped
        exact (bracketed.setKernel k).goto fits
  | mpMain =>
    rw [here] at stepped fits
    cases stepped
    refine bracketed.move rfl rfl rfl (fun other differs => ?_) ⟨fits.1, rfl, ?_⟩
    · rw [goto_status, setCpuStatus_status, if_neg differs]
    · rw [goto_status, setCpuStatus_status, if_pos rfl]
      exact nofun
  | trap frame =>
    rw [here] at stepped fits
    simp only at stepped
    have quiet : s.calls c = [] := by
      cases frame with
      | user => exact fits.1
      | kernel => exact fits.1
    split at stepped
    · cases stepped
      exact bracketed.goto (.inl quiet)
    · cases stepped
      refine bracketed.move rfl rfl rfl (fun other differs => ?_) ?_
      · rw [goto_status, setCpuStatus_status, if_neg differs]
      · rw [goto_status, setCpuStatus_status, if_pos rfl]
        cases frame with
        | user tf ambient =>
          rw [if_neg fits.2]
          exact ⟨quiet, nofun⟩
        | kernel trapno =>
          rw [if_pos fits.2]
          exact ⟨quiet, rfl, nofun⟩
  | mode frame =>
    rw [here] at stepped fits
    cases frame with
    | user tf ambient =>
      cases stepped
      exact bracketed.goto ⟨fits.1, rfl, fits.2⟩
    | kernel trapno =>
      cases stepped
      exact bracketed.woken fits.1 fits.2
  | handle tf ambient =>
    rw [here] at stepped fits
    cases stepped
    exact bracketed.handle fits.1 fits.2
  | schedYield =>
    rw [here] at stepped fits
    simp only at stepped
    split at stepped
    · cases stepped
      exact bracketed.move rfl rfl rfl (fun _ _ => rfl) fits
    · split at stepped
      · split at stepped
        · cases stepped
          exact bracketed.goto fits
        · cases stepped
          exact bracketed.goto fits
      · cases stepped
        exact bracketed.goto fits
  | schedHalt =>
    rw [here] at stepped fits
    simp only at stepped
    split at stepped
    · cases stepped
      refine bracketed.move rfl rfl rfl (fun other differs => ?_) ⟨fits.1, rfl, ?_⟩
      · rw [goto_status, setCpuStatus_status, if_neg differs, setCurenv_status]
      · rw [goto_status, setCpuStatus_status, if_pos rfl]
    · cases stepped
      exact bracketed.goto (.inr fits.1)
  | envRun e =>
    rw [here] at stepped fits
    cases stepped
    have status (other : Fin ncpu) :
        ((Jos.envRun s.machine c e).cpus other).cpuStatus = s.cpuStatus other :=
      setCurenv_status (s := s)
    exact bracketed.move rfl rfl rfl (fun other _ => status other)
      ⟨fits.1, rfl, by rw [goto_status]; exact fun halted => fits.2 ((status c).symm.trans halted)⟩
  | locking next =>
    rw [here] at stepped
    cases stepped
    exact (bracketed.spinLock here).2
  | unlocking next =>
    rw [here] at stepped
    cases stepped
    exact (bracketed.spinUnlock here).2

theorem enter {frame : Frame} (stepped : s.step (.enter c frame) = some s') : s'.Bracketed := by
  have fits := bracketed.fits c
  have begins (outside : s.calls c = [.lock, .unlock])
      (fits : (Spot.trap frame : Spot ncpu).Fits [] (s.cpuStatus c)) :
      ((s.goto c (.trap frame)).record c []).Bracketed := by
    refine ⟨fun other => ?_, fun other => ?_⟩
    · rw [record_calls]
      by_cases same : other = c
      · subst same
        rw [if_pos rfl]
        refine iff_of_false (fun held => ?_) nofun
        have locked := (bracketed.holding other).mp held
        rw [outside] at locked
        cases locked
      · rw [if_neg same]
        exact bracketed.holding other
    · change ((s.goto c (.trap frame)).spot other).Fits _ (s.cpuStatus other)
      rw [goto_spot, record_calls]
      by_cases same : other = c
      · subst same
        rw [if_pos rfl, if_pos rfl]
        exact fits
      · rw [if_neg same, if_neg same]
        exact bracketed.fits other
  unfold Smp.step at stepped
  simp only at stepped
  split at stepped
  · rename_i here
    rw [here] at fits
    cases stepped
    exact begins fits.1 ⟨rfl, fits.2⟩
  · rename_i here
    rw [here] at fits
    cases stepped
    exact begins fits.1 ⟨rfl, fits.2⟩
  · cases stepped

theorem step {event : SmpEvent ncpu} (stepped : s.step event = some s') : s'.Bracketed := by
  cases event with
  | advance c =>
    have stepped : s.advance c = some s' := stepped
    exact bracketed.advance stepped
  | enter c frame => exact bracketed.enter stepped

theorem between : s.Between c ↔ s.lock.holding c := by
  have fits := bracketed.fits c
  have shape := fits.calls
  rw [bracketed.holding, Between]
  rcases shape with none_yet | locked | done
  · rw [none_yet]
    exact iff_of_false nofun nofun
  · rw [locked]
    exact iff_of_true rfl rfl
  · rw [done]
    exact iff_of_false nofun nofun

end

end Bracketed

theorem Booting.bracketed {platform : Platform npages} (booting : s.Booting platform) :
    s.Bracketed := by
  refine ⟨fun c => ?_, fun c => ?_⟩
  · rw [booting.free, booting.calls]
    exact iff_of_false nofun nofun
  · rw [booting.calls]
    by_cases same : c = s.bootcpu
    · subst same
      rw [booting.boot.1, booting.boot.2]
      exact ⟨rfl, nofun⟩
    · obtain ⟨off, unused⟩ := booting.off c same
      rw [off, unused]
      exact ⟨rfl, nofun⟩

/-- In every run of the processors: at most one is between its `lock_kernel` and
its `unlock_kernel`; none calls the one while it holds the lock, or the other
while it does not; and one that is in user mode or halted has done each once
since it entered the kernel. -/
theorem lock_brackets {platform : Platform npages}
    (reached : Reachable (Booting platform) Smp.step (fun _ _ => True) s) :
    (∀ c other, s.Between c → s.Between other → c = other) ∧
    (∀ c next, s.spot c = .locking next → ¬ s.lock.holding c) ∧
    (∀ c next, s.spot c = .unlocking next → s.lock.holding c) ∧
    (∀ c, s.Between c ↔ s.lock.holding c) ∧
    ∀ c, s.spot c = .user ∨ s.spot c = .halted → s.calls c = [.lock, .unlock] := by
  have bracketed : s.Bracketed := reached.invariant Bracketed (fun _ booting => booting.bracketed)
    fun _ _ _ bracketed _ stepped => bracketed.step stepped
  refine ⟨fun c other here there => ?_, fun c next here => (bracketed.spinLock here).1,
    fun c next here => (bracketed.spinUnlock here).1, fun c => bracketed.between,
    fun c outside => ?_⟩
  · have held := bracketed.between.mp here
    have held' := bracketed.between.mp there
    exact Option.some.inj (held.2.symm.trans held'.2)
  · have fits := bracketed.fits c
    rcases outside with here | here
    · rw [here] at fits
      exact fits.1
    · rw [here] at fits
      exact fits.1

/-- Two processors of the sample machine. -/
theorem sample_lock_brackets : ∃ s : Smp 4096 2,
    Reachable (Booting sample) Smp.step (fun _ _ => True) s ∧
    (∀ c other, s.Between c → s.Between other → c = other) ∧
    (∀ c next, s.spot c = .locking next → ¬ s.lock.holding c) ∧
    (∀ c next, s.spot c = .unlocking next → s.lock.holding c) ∧
    (∀ c, s.Between c ↔ s.lock.holding c) ∧
    ∀ c, s.spot c = .user ∨ s.spot c = .halted → s.calls c = [.lock, .unlock] := by
  obtain ⟨k, -, booted, -⟩ := sample_booted
  let cpus : Fin 2 → CpuInfo := fun c => ⟨if c = 0 then .started else .unused, none⟩
  let start : Smp 4096 2 :=
    { machine := ⟨k, cpus, 0⟩
      lock := ⟨false, none⟩
      panicstr := false
      bootcpu := 0
      binaries := []
      spot := fun c => if c = 0 then .i386Init else .off
      calls := fun _ => [] }
  have booting : start.Booting sample :=
    ⟨booted, rfl, fun _ => rfl, ⟨rfl, rfl⟩, fun c other => ⟨if_neg other, if_neg other⟩⟩
  have stepped : start.step (.advance 0) = some (start.goto 0 (.locking (.bootAps 0))) := rfl
  have stepped' : (start.goto 0 (.locking (.bootAps 0))).step (.advance 0) =
      some ((start.goto 0 (.locking (.bootAps 0))).spinLock 0 (.bootAps 0)) := rfl
  have reached : Reachable (Booting sample) Smp.step (fun _ _ => True)
      ((start.goto 0 (.locking (.bootAps 0))).spinLock 0 (.bootAps 0)) :=
    ⟨start, _, booting, (Along.nil.snoc trivial stepped).snoc trivial stepped'⟩
  exact ⟨_, reached, lock_brackets reached⟩

end Smp

end Jos
