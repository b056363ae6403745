import Jos.Calls.Fate

/-! `env_run` and the scheduler on the processors: who executes what afterwards. -/

set_option autoImplicit false

namespace Jos

open Function

variable {npages ncpu : Nat} {s s' : Machine npages ncpu} {cpu other : Fin ncpu} {e x : EnvIdx}

namespace Machine

def Busy (s : Machine npages ncpu) (e : EnvIdx) : Prop := ∃ cpu, s.curenv cpu = some e

@[simp] theorem curenv_setKernel {k : Kernel npages} :
    (s.setKernel k).curenv cpu = s.curenv cpu := rfl

@[simp] theorem curenv_setCpuStatus {status : CpuStatus} :
    (s.setCpuStatus other status).curenv cpu = s.curenv cpu := by
  unfold setCpuStatus curenv
  by_cases same : cpu = other
  · subst same
    simp only [update_self]
  · simp only [update_of_ne same]

theorem curenv_setCurenv {now : Option EnvIdx} :
    (s.setCurenv cpu now).curenv other = if other = cpu then now else s.curenv other := by
  unfold setCurenv curenv
  by_cases same : other = cpu
  · subst same
    simp only [update_self, if_true]
  · simp only [update_of_ne same, if_neg same]

end Machine

theorem envRun_curenv :
    (envRun s cpu e).curenv other = if other = cpu then some e else s.curenv other :=
  Machine.curenv_setCurenv

theorem envSwitch_spec {k : Kernel npages} {curenv : Option EnvIdx} {number : Nat} (x : EnvIdx) :
    ((envSwitch k curenv number e).envs x).envPml4e = (k.envs x).envPml4e ∧
    ((envSwitch k curenv number e).envs x).envStatus =
      if curenv = some e then (k.envs x).envStatus
      else if x = e then .running
      else if curenv = some x ∧ (k.envs x).envStatus = .running then .runnable
      else (k.envs x).envStatus := by
  have pop {k₁ : Kernel npages} (x : EnvIdx) :
      ((popTf k₁ number e).envs x).envPml4e = (k₁.envs x).envPml4e ∧
      ((popTf k₁ number e).envs x).envStatus = (k₁.envs x).envStatus := by
    unfold popTf Kernel.setEnv
    by_cases same : x = e
    · subst same
      simp only [update_self, and_self]
    · simp only [update_of_ne same, and_self]
  have mark {k₁ : Kernel npages} {slot : EnvIdx} {status : EnvStatus} (x : EnvIdx) :
      ((k₁.setStatus slot status).envs x).envPml4e = (k₁.envs x).envPml4e ∧
      ((k₁.setStatus slot status).envs x).envStatus =
        if x = slot then status else (k₁.envs x).envStatus := by
    unfold Kernel.setStatus Kernel.setEnv
    by_cases same : x = slot
    · subst same
      simp only [update_self, if_true, and_self]
    · simp only [update_of_ne same, if_neg same, and_self]
  unfold envSwitch
  split
  · exact pop x
  · rename_i differs
    rw [(pop x).1, (pop x).2, (mark x).1, (mark x).2]
    cases curenv with
    | none => simp
    | some old =>
      simp only [Option.some.injEq]
      split
      · rename_i running
        rw [(mark x).1, (mark x).2]
        refine ⟨rfl, ?_⟩
        by_cases target : x = e
        · simp [target]
        · by_cases here : x = old
          · subst here
            simp [target, running]
          · have back : ¬ old = x := fun same => here same.symm
            simp [target, here, back]
      · rename_i idle
        refine ⟨rfl, ?_⟩
        by_cases target : x = e
        · simp [target]
        · by_cases here : old = x
          · subst here
            simp [idle]
          · simp [target, here]

theorem envRun_status (x : EnvIdx) : (envRun s cpu e).status x =
    if s.curenv cpu = some e then s.status x
    else if x = e then .running
    else if s.curenv cpu = some x ∧ s.status x = .running then .runnable
    else s.status x := (envSwitch_spec x).2

theorem schedYield_cases (ran : schedYield s cpu = some s') :
    (∃ e, s.status e = .runnable ∧ s' = envRun { s with envCounter := e } cpu e) ∨
    (∃ e, s.curenv cpu = some e ∧ s.status e = .running ∧ s' = envRun s cpu e) ∨
    (s' = (s.setCurenv cpu none).setCpuStatus cpu .halted ∧
      ∀ e, s.curenv cpu = some e → s.status e ≠ .running) := by
  have halts (ran : schedHalt s cpu = some s') :
      s' = (s.setCurenv cpu none).setCpuStatus cpu .halted := by
    unfold schedHalt at ran
    split at ran
    · exact (Option.some.inj ran).symm
    · cases ran
  unfold schedYield at ran
  cases found : nextRunnable s.kernel s.envCounter with
  | some e =>
    rw [found] at ran
    have runnable : (s.kernel.envs e).envStatus = .runnable := by
      simpa using List.find?_some found
    exact .inl ⟨e, runnable, (Option.some.inj ran).symm⟩
  | none =>
    rw [found] at ran
    simp only at ran
    cases here : s.curenv cpu with
    | none =>
      rw [here] at ran
      exact .inr (.inr ⟨halts ran, nofun⟩)
    | some e =>
      rw [here] at ran
      simp only at ran
      split at ran
      · rename_i running
        exact .inr (.inl ⟨e, rfl, running, (Option.some.inj ran).symm⟩)
      · rename_i idle
        exact .inr (.inr ⟨halts ran, fun other same => Option.some.inj same ▸ idle⟩)

/-- Each environment executes on one processor at most, and then has the status
of a running or a dying one. -/
structure Machine.Exclusive (s : Machine npages ncpu) : Prop where
  listed : s.kernel.Listed
  alone : ∀ {cpu other e}, s.curenv cpu = some e → s.curenv other = some e → cpu = other
  live : ∀ {cpu e}, s.curenv cpu = some e → s.kernel.Live e
  busy : ∀ {cpu e}, s.curenv cpu = some e → s.status e = .running ∨ s.status e = .dying

structure Machine.Leaving (s : Machine npages ncpu) (cpu : Fin ncpu) : Prop where
  listed : s.kernel.Listed
  alone : ∀ {cpu other e}, s.curenv cpu = some e → s.curenv other = some e → cpu = other
  live : ∀ {other e}, other ≠ cpu → s.curenv other = some e → s.kernel.Live e
  busy : ∀ {other e}, other ≠ cpu → s.curenv other = some e →
    s.status e = .running ∨ s.status e = .dying

theorem Machine.Exclusive.leaving (exclusive : s.Exclusive) (cpu : Fin ncpu) : s.Leaving cpu :=
  ⟨exclusive.listed, exclusive.alone, fun _ => exclusive.live, fun _ => exclusive.busy⟩

namespace Machine.Leaving

theorem resume (leaving : s.Leaving cpu) (here : s.curenv cpu = some e) (live : s.kernel.Live e)
    (busy : s.status e = .running ∨ s.status e = .dying) : (envRun s cpu e).Exclusive := by
  have same (slot : Fin ncpu) : (envRun s cpu e).curenv slot = s.curenv slot := by
    rw [envRun_curenv]
    split
    · rename_i equal
      rw [equal, here]
    · rfl
  have spec (x : EnvIdx) : ((envRun s cpu e).kernel.envs x).envPml4e = (s.kernel.envs x).envPml4e ∧
      (envRun s cpu e).status x = s.status x := by
    obtain ⟨pml4e, status⟩ := @envSwitch_spec npages e s.kernel (s.curenv cpu) cpu.val x
    rw [if_pos here] at status
    exact ⟨pml4e, status⟩
  refine ⟨leaving.listed.envSwitch (.inl here), fun {slot other x} first second => ?_,
    fun {slot x} first => ?_, fun {slot x} first => ?_⟩
  · rw [same] at first second
    exact leaving.alone first second
  · rw [same] at first
    rw [Kernel.Live, (spec x).1]
    by_cases self : slot = cpu
    · subst self
      cases here.symm.trans first
      exact live
    · exact leaving.live self first
  · rw [same] at first
    rw [(spec x).2]
    by_cases self : slot = cpu
    · subst self
      cases here.symm.trans first
      exact busy
    · exact leaving.busy self first

theorem switch (leaving : s.Leaving cpu) (runnable : s.status e = .runnable)
    (differs : s.curenv cpu ≠ some e) : (envRun s cpu e).Exclusive := by
  have live : s.kernel.Live e := fun absent => by
    have idle := leaving.listed.idle absent
    change s.status e = .free at idle
    rw [runnable] at idle
    cases idle
  have apart {slot : Fin ncpu} (here : s.curenv slot = some e) : False := by
    by_cases self : slot = cpu
    · subst self
      exact differs here
    · rcases leaving.busy self here with running | dying
      · rw [runnable] at running
        cases running
      · rw [runnable] at dying
        cases dying
  have spec (x : EnvIdx) : ((envRun s cpu e).kernel.envs x).envPml4e = (s.kernel.envs x).envPml4e ∧
      (envRun s cpu e).status x = if x = e then .running
        else if s.curenv cpu = some x ∧ s.status x = .running then .runnable else s.status x := by
    obtain ⟨pml4e, status⟩ := @envSwitch_spec npages e s.kernel (s.curenv cpu) cpu.val x
    rw [if_neg differs] at status
    exact ⟨pml4e, status⟩
  refine ⟨leaving.listed.envSwitch (.inr runnable), fun {slot other x} first second => ?_,
    fun {slot x} first => ?_, fun {slot x} first => ?_⟩
  · rw [envRun_curenv] at first second
    by_cases self : slot = cpu
    · by_cases self' : other = cpu
      · rw [self, self']
      · rw [if_pos self] at first
        rw [if_neg self', ← first] at second
        exact (apart second).elim
    · by_cases self' : other = cpu
      · rw [if_pos self'] at second
        rw [if_neg self, ← second] at first
        exact (apart first).elim
      · rw [if_neg self] at first
        rw [if_neg self'] at second
        exact leaving.alone first second
  · rw [envRun_curenv] at first
    rw [Kernel.Live, (spec x).1]
    by_cases self : slot = cpu
    · rw [if_pos self] at first
      cases first
      exact live
    · rw [if_neg self] at first
      exact leaving.live self first
  · rw [envRun_curenv] at first
    rw [(spec x).2]
    by_cases self : slot = cpu
    · rw [if_pos self] at first
      cases first
      exact .inl (if_pos rfl)
    · rw [if_neg self] at first
      have other : x ≠ e := by
        rintro rfl
        exact apart first
      have elsewhere : ¬ (s.curenv cpu = some x ∧ s.status x = .running) := fun both =>
        self (leaving.alone first both.1)
      rw [if_neg other, if_neg elsewhere]
      exact leaving.busy self first

theorem yield (leaving : s.Leaving cpu)
    (idle : ∀ e, s.curenv cpu = some e → s.status e ≠ .runnable)
    (ran : schedYield s cpu = some s') : s'.Exclusive := by
  rcases schedYield_cases ran with ⟨e, runnable, rfl⟩ | ⟨e, here, running, rfl⟩ | ⟨rfl, -⟩
  · have leaving : Machine.Leaving { s with envCounter := e } cpu :=
      ⟨leaving.listed, leaving.alone, leaving.live, leaving.busy⟩
    exact leaving.switch runnable fun here => idle e here runnable
  · have live : s.kernel.Live e := fun absent => by
      have free := leaving.listed.idle absent
      change s.status e = .free at free
      rw [running] at free
      cases free
    exact leaving.resume here live (.inl running)
  · have left {slot : Fin ncpu} {e : EnvIdx}
        (here : ((s.setCurenv cpu none).setCpuStatus cpu .halted).curenv slot = some e) :
        slot ≠ cpu ∧ s.curenv slot = some e := by
      rw [Machine.curenv_setCpuStatus, Machine.curenv_setCurenv] at here
      split at here
      · cases here
      · rename_i differs
        exact ⟨differs, here⟩
    exact ⟨leaving.listed, fun first second => leaving.alone (left first).2 (left second).2,
      fun first => leaving.live (left first).1 (left first).2,
      fun first => leaving.busy (left first).1 (left first).2⟩

end Machine.Leaving

theorem schedOrder_hits {slot counter : Nat} (small : slot < 1024) (small' : counter < 1024) :
    (counter + ((slot + 1024 - (counter + 1)) % 1024 + 1)) % 1024 = slot := by
  omega

theorem schedYield_only (only : ∀ x, s.status x = .runnable ↔ x = e) :
    schedYield s cpu = some (envRun { s with envCounter := e } cpu e) := by
  have found : nextRunnable s.kernel s.envCounter = some e := by
    have runnable (x : EnvIdx) : (s.kernel.envs x).envStatus = .runnable ↔ x = e := only x
    have order : e ∈ schedOrder s.envCounter := by
      refine List.mem_map.mpr ⟨(e.val + nenv - (s.envCounter.val + 1)) % nenv,
        List.mem_range.mpr (Nat.mod_lt _ (by decide)), Fin.ext ?_⟩
      exact schedOrder_hits e.isLt s.envCounter.isLt
    cases result : nextRunnable s.kernel s.envCounter with
    | none =>
      have absent := List.find?_eq_none.mp result e order
      simp [runnable] at absent
    | some x =>
      have here : (s.kernel.envs x).envStatus = .runnable := by simpa using List.find?_some result
      rw [(runnable x).mp here]
  unfold schedYield
  rw [found]

theorem schedYield_halts (none_runnable : ∀ x, s.status x ≠ .runnable)
    (stopped : ∀ x, s.curenv cpu = some x → s.status x ≠ .running)
    (alive : ∃ x, s.status x = .dying) :
    schedYield s cpu = some ((s.setCurenv cpu none).setCpuStatus cpu .halted) := by
  have found : nextRunnable s.kernel s.envCounter = none := by
    refine List.find?_eq_none.mpr fun x _ => ?_
    have idle : (s.kernel.envs x).envStatus ≠ .runnable := none_runnable x
    simpa using idle
  have halts : schedHalt s cpu = some ((s.setCurenv cpu none).setCpuStatus cpu .halted) := by
    obtain ⟨x, dying⟩ := alive
    have dying : (s.kernel.envs x).envStatus = .dying := dying
    exact if_pos ⟨x, by rw [dying]; rfl⟩
  unfold schedYield
  rw [found]
  cases here : s.curenv cpu with
  | none => exact halts
  | some x =>
    simp only [if_neg (stopped x here)]
    exact halts

end Jos
