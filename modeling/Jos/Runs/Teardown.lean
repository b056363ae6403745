import Jos.Runs.Processors

/-! Freeing environments on several processors: an environment that executes is
marked dying by others and freed by its own processor. -/

set_option autoImplicit false

namespace Jos

open Foundation Function

variable {npages ncpu : Nat} {platform : Platform npages} {s s' : Machine npages ncpu}
  {k k' : Kernel npages} {cpu : Fin ncpu} {c e : EnvIdx} {call : Syscall} {outcome : Outcome}
  {entry : Entry ncpu} {busy : EnvIdx → Prop}

/-- A call that interferes with no environment that executes: it sets the status
of none, marks none running or dying, and, as a safe call, it does not destroy
one that is dying on another processor and sends nothing to one. -/
def GentleCall (k : Kernel npages) (busy : EnvIdx → Prop) (c : EnvIdx) : Syscall → Prop
  | .envSetStatus envid status => ∀ e, envid2env k c envid true = some e →
      status.toInt < 0 ∨ 4 < status.toInt ∨ (status ≠ 1 ∧ status ≠ 3 ∧ ¬ busy e) ∨
        status = 3 ∧ (k.envs e).envStatus = .running
  | call => SafeCall k busy c call

def Machine.Gentle (s : Machine npages ncpu) (entry : Entry ncpu) : Prop :=
  ∀ c, s.curenv entry.cpu = some c → s.status c ≠ .dying →
    entry.tf.tfTrapno.toNat = tSyscall → GentleCall s.kernel s.Busy c entry.tf.request

theorem GentleCall.safe (gentle : GentleCall k busy c call) : SafeCall k busy c call := by
  cases call with
  | envSetStatus envid status =>
    intro e found used
    rcases gentle e found with negative | large | ⟨-, -, unused⟩ | ⟨running, -⟩
    · exact .inl negative
    · exact .inr (.inl large)
    · exact absurd used unused
    · exact .inr (.inr (.inr running))
  | _ => exact gentle

theorem Machine.Gentle.safe (gentle : s.Gentle entry) : s.Safe entry :=
  fun c here running trapno => (gentle c here running trapno).safe

theorem EnvStatus.code_running {code : Nat} (running : ofCode code = .running) : code = 3 := by
  unfold ofCode at running
  split at running <;> first | rfl | cases running

theorem EnvStatus.code_dying {code : Nat} (dying : ofCode code = .dying) : code = 1 := by
  unfold ofCode at dying
  split at dying <;> first | rfl | cases dying

theorem Fate.marks {tf : Trapframe}
    (fate : Fate (k.setEnv c { k.envs c with envTf := tf }) c k' call outcome e)
    (gentle : GentleCall k busy c call)
    (status : (k'.envs e).envStatus = .running ∨ (k'.envs e).envStatus = .dying) :
    (k'.envs e).envStatus = (k.envs e).envStatus ∨
      (k.envs e).envStatus = .running ∧ e ≠ c := by
  have before := (@setTf_fields npages k c tf e).2
  have apart {now : EnvStatus} (here : (k'.envs e).envStatus = now) (running : now ≠ .running)
      (dying : now ≠ .dying) : False := by
    rw [here] at status
    exact status.elim running dying
  cases fate with
  | same _ kept => exact .inl (kept.trans before)
  | waits _ _ _ now => exact (apart now nofun nofun).elim
  | woken _ _ _ _ now => exact (apart now nofun nofun).elim
  | born _ now => exact (apart now nofun nofun).elim
  | @marked envid code set found low high _ now =>
    subst set
    rw [envid2env_setTf] at found
    rcases gentle e found with negative | large | ⟨first, third, -⟩ | ⟨rfl, running⟩
    · exact absurd negative (not_lt.mpr low)
    · exact absurd large (not_lt.mpr high)
    · have bound := code.isLt
      have small : code.toNat ≤ 4 := by
        rw [BitVec.toInt_eq_toNat_cond] at low high
        split at low <;> omega
      have first' : code.toNat ≠ 1 := fun same => first (BitVec.eq_of_toNat_eq same)
      have third' : code.toNat ≠ 3 := fun same => third (BitVec.eq_of_toNat_eq same)
      exact (apart now (fun running => third' (EnvStatus.code_running running))
        fun dying => first' (EnvStatus.code_dying dying)).elim
    · exact .inl (now.trans running.symm)
  | dying _ _ running differs => exact .inr ⟨before.symm.trans running, differs⟩
  | freed _ _ now => exact (apart now nofun nofun).elim

theorem Fate.stays_dying {tf : Trapframe}
    (fate : Fate (k.setEnv c { k.envs c with envTf := tf }) c k' call outcome e)
    (gentle : GentleCall k busy c call) (used : busy e) (differs : e ≠ c) (live : k.Live e)
    (dying : (k.envs e).envStatus = .dying) :
    k'.Live e ∧ (k'.envs e).envStatus = .dying := by
  have before := @setTf_fields npages k c tf e
  have executing := fate.executing gentle.safe.setTf used
    (by rw [Kernel.Live, before.1]; exact live) (by rw [before.2]; exact .inr dying)
  rcases executing with ⟨live', status⟩ | ⟨self, -⟩ | ⟨self, -⟩
  · rcases fate.marks gentle status with same | ⟨running, -⟩
    · exact ⟨live', same.trans dying⟩
    · rw [dying] at running
      cases running
  · exact absurd self differs
  · exact absurd self differs

structure Machine.Kept (s : Machine npages ncpu) (cpu : Fin ncpu) (s' : Machine npages ncpu) :
    Prop where
  live : ∀ x, s'.kernel.Live x ↔ s.kernel.Live x
  others : ∀ other, other ≠ cpu → s'.curenv other = s.curenv other
  dying : ∀ x, s.status x = .dying → s'.status x = .dying

theorem envRun_kept (ready : s.curenv cpu = some e ∨ s.status e = .runnable) :
    s.Kept cpu (envRun s cpu e) where
  live := fun x => by
    rw [Kernel.Live, Kernel.Live]
    have same : ((envRun s cpu e).kernel.envs x).envPml4e = (s.kernel.envs x).envPml4e :=
      (envSwitch_spec x).1
    rw [same]
  others := fun other differs => by rw [envRun_curenv, if_neg differs]
  dying := fun x dying => by
    rw [envRun_status]
    split
    · exact dying
    · rename_i switches
      have runnable := ready.resolve_left switches
      have other : x ≠ e := by
        rintro rfl
        rw [runnable] at dying
        cases dying
      have idle : ¬ (s.curenv cpu = some x ∧ s.status x = .running) := by
        rw [dying]
        exact fun both => absurd both.2 (by simp)
      rw [if_neg other, if_neg idle]
      exact dying

theorem schedYield_kept (ran : schedYield s cpu = some s') : s.Kept cpu s' := by
  rcases schedYield_cases ran with ⟨e, runnable, rfl⟩ | ⟨e, here, running, rfl⟩ | ⟨rfl, -⟩
  · have kept : Machine.Kept { s with envCounter := e } cpu _ := envRun_kept (.inr runnable)
    exact ⟨kept.live, kept.others, kept.dying⟩
  · exact envRun_kept (.inl here)
  · refine ⟨fun _ => Iff.rfl, fun other differs => ?_, fun _ => id⟩
    rw [Machine.curenv_setCpuStatus, Machine.curenv_setCurenv, if_neg differs]

theorem leave_kept {exit : Exit} (here : s.curenv cpu = some c)
    (left : leave s cpu c exit = some s') : s.Kept cpu s' := by
  cases exit with
  | toTrap =>
    simp only [leave] at left
    split at left
    · obtain rfl := Option.some.inj left
      exact envRun_kept (.inl here)
    · exact schedYield_kept left
  | toUser =>
    simp only [leave] at left
    cases left
    exact envRun_kept (.inl here)
  | toSched =>
    simp only [leave] at left
    exact schedYield_kept left
  | toSchedAfterExit =>
    simp only [leave] at left
    have kept := schedYield_kept left
    refine ⟨kept.live, fun other differs => ?_, kept.dying⟩
    rw [kept.others other differs, Machine.curenv_setCurenv, if_neg differs]

def Machine.Marked (s : Machine npages ncpu) : Prop :=
  ∀ e, s.status e = .running ∨ s.status e = .dying → s.Busy e

/-- The same while a processor is in the kernel: its own environment may have
stopped, but is not dying. -/
def Machine.Pending (s : Machine npages ncpu) (cpu : Fin ncpu) : Prop :=
  ∀ e, s.status e = .running ∨ s.status e = .dying →
    (∃ other, other ≠ cpu ∧ s.curenv other = some e) ∨
      s.curenv cpu = some e ∧ s.status e = .running

namespace Machine.Pending

theorem resume (pending : s.Pending cpu) (here : s.curenv cpu = some e) :
    (envRun s cpu e).Marked := by
  intro x status
  rw [envRun_status, if_pos here] at status
  rcases pending x status with ⟨other, differs, there⟩ | ⟨there, -⟩
  · exact ⟨other, by rw [envRun_curenv, if_neg differs, there]⟩
  · obtain rfl := Option.some.inj (here.symm.trans there)
    exact ⟨cpu, by rw [envRun_curenv, if_pos rfl]⟩

theorem yield (pending : s.Pending cpu)
    (idle : ∀ e, s.curenv cpu = some e → s.status e ≠ .runnable)
    (ran : schedYield s cpu = some s') : s'.Marked := by
  rcases schedYield_cases ran with ⟨e, runnable, rfl⟩ | ⟨e, here, running, rfl⟩ | ⟨rfl, stopped⟩
  · intro x status
    have differs : ¬ ({ s with envCounter := e } : Machine npages ncpu).curenv cpu = some e :=
      fun here => idle e here runnable
    rw [envRun_status, if_neg differs] at status
    by_cases target : x = e
    · subst target
      exact ⟨cpu, by rw [envRun_curenv, if_pos rfl]⟩
    · rw [if_neg target] at status
      split at status
      · rcases status with none | none <;> cases none
      · rename_i left
        rcases pending x status with ⟨other, elsewhere, there⟩ | both
        · refine ⟨other, ?_⟩
          rw [envRun_curenv, if_neg elsewhere]
          exact there
        · exact absurd both left
  · exact pending.resume here
  · intro x status
    rcases pending x status with ⟨other, elsewhere, there⟩ | ⟨here, running⟩
    · exact ⟨other, by rw [Machine.curenv_setCpuStatus, Machine.curenv_setCurenv,
        if_neg elsewhere, there]⟩
    · exact absurd running (stopped x here)

theorem clear (pending : s.Pending cpu) (gone : ∀ e, s.curenv cpu = some e →
    s.status e ≠ .running) : (s.setCurenv cpu none).Pending cpu := by
  intro x status
  rcases pending x status with ⟨other, elsewhere, there⟩ | ⟨here, running⟩
  · exact .inl ⟨other, elsewhere, by rw [Machine.curenv_setCurenv, if_neg elsewhere, there]⟩
  · exact absurd running (gone x here)

end Machine.Pending

theorem Dispatched.pending {tf : Trapframe} {exit : Exit} (marked : s.Marked)
    (here : s.curenv cpu = some c) (alive : s.status c ≠ .dying)
    (gentle : GentleCall s.kernel s.Busy c call)
    (ended : Dispatched (s.kernel.setEnv c { s.kernel.envs c with envTf := tf }) c k' call outcome
      exit) : (s.setKernel k').Pending cpu := by
  intro x status
  rcases (ended.fate x).marks gentle status with same | ⟨running, differs⟩
  · have before : s.status x = .running ∨ s.status x = .dying := by
      change (k'.envs x).envStatus = _ ∨ (k'.envs x).envStatus = _ at status
      rw [same] at status
      exact status
    obtain ⟨other, there⟩ := marked x before
    by_cases self : other = cpu
    · subst self
      cases here.symm.trans there
      exact .inr ⟨there, same.trans (before.resolve_right alive)⟩
    · exact .inl ⟨other, self, there⟩
  · obtain ⟨other, there⟩ := marked x (.inl running)
    refine .inl ⟨other, ?_, there⟩
    rintro rfl
    exact differs (Option.some.inj (there.symm.trans here))

theorem Machine.Gentle.started (gentle : s.Gentle entry) :
    (s.setCpuStatus entry.cpu .started).Gentle entry := by
  intro c here
  rw [Machine.busy_setCpuStatus]
  rw [Machine.curenv_setCpuStatus] at here
  exact gentle c here

theorem Machine.Marked.started (marked : s.Marked) (cpu : Fin ncpu) :
    (s.setCpuStatus cpu .started).Marked := by
  intro x status
  rw [Machine.busy_setCpuStatus]
  exact marked x status

theorem Machine.Exclusive.marked (exclusive : s.Exclusive) (marked : s.Marked)
    (gentle : s.Gentle entry) (ran : Jos.trap s entry = some s') : s'.Marked := by
  obtain ⟨entered, begun⟩ := exclusive.entered ran
  have gentle := gentle.started
  have marked := marked.started entry.cpu
  generalize s.setCpuStatus entry.cpu .started = s at begun gentle marked entered
  cases entered with
  | idle here yields =>
    refine Machine.Pending.yield (fun x status => ?_) (by rw [here]; exact (by simp)) yields
    obtain ⟨other, there⟩ := marked x status
    refine .inl ⟨other, ?_, there⟩
    rintro rfl
    rw [here] at there
    cases there
  | @dying c k' here _ freed yields =>
    have envs := (envFree_envs freed).2.2
    have gone : (k'.envs c).envStatus = .free := by rw [envs, update_self]
    have pending : (s.setKernel k').Pending entry.cpu := by
      intro x status
      change (k'.envs x).envStatus = _ ∨ (k'.envs x).envStatus = _ at status
      have differs : x ≠ c := by
        rintro rfl
        rw [gone] at status
        rcases status with none | none <;> cases none
      rw [envs, update_of_ne differs] at status
      obtain ⟨other, there⟩ := marked x status
      refine .inl ⟨other, ?_, there⟩
      rintro rfl
      exact differs (Option.some.inj (there.symm.trans here))
    refine (pending.clear fun x there => ?_).yield (by rw [clear_curenv]; exact (by simp)) yields
    cases here.symm.trans there
    change (k'.envs c).envStatus ≠ _
    rw [gone]
    exact by simp
  | @handled c k' call outcome exit here alive asked _ ended left =>
    have permitted : GentleCall s.kernel s.Busy c call := by
      rcases asked with ⟨trapno, rfl⟩ | rfl
      · exact gentle c here alive trapno
      · trivial
    have pending := ended.pending marked here alive permitted
    obtain ⟨-, self⟩ := begun.dispatched here alive permitted.safe ended
    have still : (s.setKernel k').curenv entry.cpu = some c := here
    have idle (stays : exit ≠ .toSchedAfterExit) :
        ∀ x, (s.setKernel k').curenv entry.cpu = some x → (s.setKernel k').status x ≠ .runnable := by
      intro x there
      cases still.symm.trans there
      change (k'.envs _).envStatus ≠ _
      rcases self stays with ⟨-, now | now⟩ | ⟨-, now⟩ <;> (rw [now]; exact (by simp))
    cases exit with
    | toTrap =>
      simp only [leave] at left
      split at left
      · obtain rfl := Option.some.inj left
        exact pending.resume still
      · exact pending.yield (idle (by simp)) left
    | toUser =>
      simp only [leave] at left
      cases left
      exact pending.resume still
    | toSched =>
      simp only [leave] at left
      exact pending.yield (idle (by simp)) left
    | toSchedAfterExit =>
      simp only [leave] at left
      refine (pending.clear fun x there => ?_).yield (by rw [clear_curenv]; exact (by simp)) left
      cases still.symm.trans there
      change (k'.envs _).envStatus ≠ _
      rw [ended.gone (ended.exits.mp rfl)]
      exact by simp

/-- No environment is freed that another processor executes, and every dying
environment executes on a processor whose next entry, and no other, frees it. -/
def Machine.FreesOwn (s : Machine npages ncpu) (entry : Entry ncpu) (s' : Machine npages ncpu) :
    Prop :=
  (∀ e, s.kernel.Live e → ¬ s'.kernel.Live e → ∀ cpu, cpu ≠ entry.cpu → s.curenv cpu ≠ some e) ∧
  ∀ e, s.status e = .dying → ∃ cpu, s.curenv cpu = some e ∧
    (entry.cpu = cpu → ¬ s'.kernel.Live e) ∧
    (entry.cpu ≠ cpu → s'.kernel.Live e ∧ s'.curenv cpu = some e ∧ s'.status e = .dying)

theorem Machine.Exclusive.frees (exclusive : s.Exclusive) (marked : s.Marked)
    (gentle : s.Gentle entry) (ran : Jos.trap s entry = some s') : s.FreesOwn entry s' := by
  obtain ⟨entered, begun⟩ := exclusive.entered ran
  have gentle := gentle.started
  have marked := marked.started entry.cpu
  suffices frees : (s.setCpuStatus entry.cpu .started).FreesOwn entry s' by
    refine ⟨fun e live dead cpu differs here => ?_, fun e dying => ?_⟩
    · exact frees.1 e live dead cpu differs (Machine.curenv_setCpuStatus.trans here)
    · obtain ⟨cpu, here, both⟩ := frees.2 e dying
      exact ⟨cpu, Machine.curenv_setCpuStatus.symm.trans here, both⟩
  generalize s.setCpuStatus entry.cpu .started = s at begun gentle marked entered
  cases entered with
  | idle here yields =>
    have kept := schedYield_kept yields
    refine ⟨fun e live dead => absurd ((kept.live e).mpr live) dead, fun e dying => ?_⟩
    obtain ⟨cpu, there⟩ := marked e (.inr dying)
    have differs : cpu ≠ entry.cpu := by
      rintro rfl
      rw [here] at there
      cases there
    exact ⟨cpu, there, fun same => absurd same.symm differs,
      fun _ => ⟨(kept.live e).mpr (begun.live there), (kept.others cpu differs).trans there,
        kept.dying e dying⟩⟩
  | @dying c k' here _ freed yields =>
    have kept := schedYield_kept yields
    have envs := (envFree_envs freed).2.2
    have other {x : EnvIdx} (differs : x ≠ c) : k'.envs x = s.kernel.envs x := by
      rw [envs, update_of_ne differs]
    refine ⟨fun e live dead cpu differs there => ?_, fun e dying => ?_⟩
    · have apart : e ≠ c := by
        rintro rfl
        exact differs (begun.alone there here)
      refine dead ((kept.live e).mpr ?_)
      change (k'.envs e).envPml4e ≠ none
      rw [other apart]
      exact live
    · obtain ⟨cpu, there⟩ := marked e (.inr dying)
      refine ⟨cpu, there, fun same => ?_, fun differs => ?_⟩
      · subst same
        cases here.symm.trans there
        refine fun live => (kept.live c).mp live ?_
        change (k'.envs c).envPml4e = none
        rw [envs, update_self]
      · have apart : e ≠ c := by
          rintro rfl
          exact differs (begun.alone here there)
        have live' : k'.Live e := by
          rw [Kernel.Live, other apart]
          exact begun.live there
        have dying' : (k'.envs e).envStatus = .dying := by
          rw [other apart]
          exact dying
        refine ⟨(kept.live e).mpr live', ?_, kept.dying e dying'⟩
        rw [kept.others cpu (Ne.symm differs), Machine.curenv_setCurenv,
          if_neg (Ne.symm differs)]
        exact there
  | @handled c k' call outcome exit here alive asked _ ended left =>
    have permitted : GentleCall s.kernel s.Busy c call := by
      rcases asked with ⟨trapno, rfl⟩ | rfl
      · exact gentle c here alive trapno
      · trivial
    obtain ⟨leaving, -⟩ := begun.dispatched here alive permitted.safe ended
    have still : (s.setKernel k').curenv entry.cpu = some c := here
    have kept := leave_kept still left
    refine ⟨fun e live dead cpu differs there => ?_, fun e dying => ?_⟩
    · exact dead ((kept.live e).mpr (leaving.live differs there))
    · obtain ⟨cpu, there⟩ := marked e (.inr dying)
      have apart : e ≠ c := by
        rintro rfl
        exact alive dying
      have differs : cpu ≠ entry.cpu := by
        rintro rfl
        exact apart (Option.some.inj (there.symm.trans here))
      obtain ⟨live', dying'⟩ := (ended.fate e).stays_dying permitted ⟨cpu, there⟩ apart
        (begun.live there) dying
      exact ⟨cpu, there, fun same => absurd same.symm differs,
        fun _ => ⟨(kept.live e).mpr live', (kept.others cpu differs).trans there,
          kept.dying e dying'⟩⟩

theorem Machine.Started.marked (started : s.Started platform) : s.Marked := by
  obtain ⟨⟨k, events, booted, along⟩, -, -⟩ := started
  have idle : ∀ x, (s.kernel.envs x).envStatus ≠ .running ∧ (s.kernel.envs x).envStatus ≠ .dying := by
    refine along.preserves (fun k => ∀ x, (k.envs x).envStatus ≠ .running ∧
      (k.envs x).envStatus ≠ .dying) (fun x => ?_) fun before event after idle created ran x => ?_
    · obtain ⟨g, booted⟩ := boot_booted booted
      rw [booted.sound.idle (not_not.mp booted.dead)]
      exact ⟨nofun, nofun⟩
    · obtain ⟨binary, type, rfl⟩ := created
      obtain ⟨e, k₁, m, tf, allocated, rfl⟩ := envCreate_cases ran
      obtain ⟨-, -, root, envs⟩ := envAlloc_envs allocated
      by_cases same : x = e
      · subst same
        simp [Kernel.setEnv, envs, allocatedEnv]
      · have first : ((k₁.setPmap m).setEnv e
            { k₁.envs e with envType := type, envTf := tf }).envs x = k₁.envs x :=
          update_of_ne same _ _
        rw [first, envs, update_of_ne same]
        exact idle x
  intro x status
  exact absurd status (not_or.mpr (idle x))

end Jos
