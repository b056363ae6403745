import Jos.Runs.Table

/-! The privilege that the saved trap frames carry into user mode, over all
events of the kernel. -/

set_option autoImplicit false

namespace Jos

open Foundation Function

variable {npages : Nat} {platform : Platform npages} {k k' : Kernel npages} {c e : EnvIdx}
  {ambient : Ambient}

/-- What `iret` may load: the user segments at privilege level 3, interrupts
enabled, and I/O privilege only where it was given. -/
structure Trapframe.Unprivileged (tf : Trapframe) (io : Bool) : Prop where
  cs : tf.tfCs = gdUt ||| 3
  ss : tf.tfSs &&& 3 = 3
  interrupts : tf.tfEflags &&& flIf ≠ 0
  iopl : io = false → tf.tfEflags &&& flIoplMask = 0

/-- What the processor leaves as it is between the `iret` to user mode and the
next trap: the privilege level in the segment registers, the I/O privilege
level, and the interrupt flag unless the environment has I/O privilege. -/
structure Trapframe.FromUser (saved tf : Trapframe) : Prop where
  cs : tf.tfCs = saved.tfCs
  ss : tf.tfSs &&& 3 = saved.tfSs &&& 3
  iopl : tf.tfEflags &&& flIoplMask = saved.tfEflags &&& flIoplMask
  interrupts : saved.tfEflags &&& flIoplMask ≠ flIoplMask →
    tf.tfEflags &&& flIf = saved.tfEflags &&& flIf

/-- The kernel data, and which environments are the file server or descend from
it by `sys_exofork`. -/
structure Origins (npages : Nat) where
  kernel : Kernel npages
  io : EnvIdx → Bool

namespace Origins

/-- The environment that an event makes, and whether it is given I/O privilege. -/
def born (s : Origins npages) : KernelEvent → Option (EnvIdx × Bool)
  | .create _ type =>
    match envAlloc s.kernel 0 with
    | .ok (e, _) => some (e, type = .fs)
    | .error _ => none
  | .alloc parentId =>
    match envAlloc s.kernel parentId with
    | .ok (e, _) => some (e, false)
    | .error _ => none
  | .call c _ .exofork =>
    match envAlloc s.kernel (s.kernel.envs c).envId with
    | .ok (e, _) => some (e, s.io c)
    | .error _ => none
  | _ => none

def inherit (s : Origins npages) (event : KernelEvent) : EnvIdx → Bool :=
  match s.born event with
  | some (e, io) => update s.io e io
  | none => s.io

def step (s : Origins npages) (event : KernelEvent) : Option (Origins npages) :=
  (kernelStep s.kernel event).map fun k => ⟨k, s.inherit event⟩

def Booted (platform : Platform npages) (s : Origins npages) : Prop :=
  boot platform = some s.kernel

def Hardware (s : Origins npages) : KernelEvent → Prop
  | .frame e tf => (s.kernel.envs e).envTf.FromUser tf
  | _ => True

/-- Moreover every frame that `sys_env_set_trapframe` installs names the user
code segment and a stack segment of level 3, and has no I/O privilege that its
target was not given; and an environment with I/O privilege leaves interrupts on. -/
def Modest (s : Origins npages) : KernelEvent → Prop
  | .frame e tf => (s.kernel.envs e).envTf.FromUser tf ∧
      ((s.kernel.envs e).envTf.tfEflags &&& flIoplMask = flIoplMask → tf.tfEflags &&& flIf ≠ 0)
  | .call c ambient (.envSetTrapframe envid _) =>
    ∀ e frame, envid2env s.kernel c envid true = some e → ambient.userTf = some frame →
      frame.tfCs ||| 3 = gdUt ||| 3 ∧ frame.tfSs &&& 3 = 3 ∧
        (s.io e = false → frame.tfEflags &&& flIoplMask = 0)
  | _ => True

structure Confined (s : Origins npages) : Prop where
  listed : s.kernel.Listed
  frames : ∀ {e}, s.kernel.Live e → (s.kernel.envs e).envTf.Unprivileged (s.io e)

end Origins

theorem Trapframe.Unprivileged.congr {tf tf' : Trapframe} {io : Bool} (safe : tf.Unprivileged io)
    (cs : tf'.tfCs = tf.tfCs) (ss : tf'.tfSs = tf.tfSs) (eflags : tf'.tfEflags = tf.tfEflags) :
    tf'.Unprivileged io := by
  refine ⟨cs.trans safe.cs, ?_, ?_, fun none_given => ?_⟩
  · rw [ss]
    exact safe.ss
  · rw [eflags]
    exact safe.interrupts
  · rw [eflags]
    exact safe.iopl none_given

theorem newTrapframe_unprivileged (io : Bool) : newTrapframe.Unprivileged io :=
  ⟨rfl, by decide, by decide, fun _ => by decide⟩

theorem createdTf_unprivileged (binary : Binary) (type : EnvType) :
    (createdTf newTrapframe binary type).Unprivileged (type = .fs) := by
  refine ⟨rfl, ?_, ?_, fun user => ?_⟩
  · exact (newTrapframe_unprivileged true).ss
  · change (if type = .fs then newTrapframe.tfEflags ||| flIoplMask else newTrapframe.tfEflags) &&&
      flIf ≠ 0
    split <;> decide
  · have other : type ≠ .fs := by simpa using user
    change (if type = .fs then newTrapframe.tfEflags ||| flIoplMask else newTrapframe.tfEflags) &&&
      flIoplMask = 0
    rw [if_neg other]
    decide

theorem Trapframe.Unprivileged.fromUser {saved tf : Trapframe} {io : Bool}
    (safe : saved.Unprivileged io) (trapped : saved.FromUser tf)
    (kept : saved.tfEflags &&& flIoplMask = flIoplMask → tf.tfEflags &&& flIf ≠ 0) :
    tf.Unprivileged io := by
  refine ⟨trapped.cs.trans safe.cs, trapped.ss.trans safe.ss, ?_, fun none_given => ?_⟩
  · by_cases privileged : saved.tfEflags &&& flIoplMask = flIoplMask
    · exact kept privileged
    · rw [trapped.interrupts privileged]
      exact safe.interrupts
  · rw [trapped.iopl]
    exact safe.iopl none_given

/-- What `sys_env_set_trapframe` installs is as good as the frame that it is given. -/
theorem unprivileged_patched {frame : Trapframe} {io : Bool} :
    Trapframe.Unprivileged
        { frame with tfCs := frame.tfCs ||| 3, tfEflags := frame.tfEflags ||| flIf } io ↔
      frame.tfCs ||| 3 = gdUt ||| 3 ∧ frame.tfSs &&& 3 = 3 ∧
        (io = false → frame.tfEflags &&& flIoplMask = 0) := by
  have enabled : (frame.tfEflags ||| flIf) &&& flIf = flIf := by
    rw [BitVec.and_or_distrib_right, BitVec.and_self]
    ext i
    simp
  have apart : (frame.tfEflags ||| flIf) &&& flIoplMask = frame.tfEflags &&& flIoplMask := by
    have clear : flIf &&& flIoplMask = 0 := by decide
    rw [BitVec.and_or_distrib_right, clear]
    exact BitVec.or_zero
  constructor
  · intro safe
    refine ⟨safe.cs, safe.ss, fun none_given => ?_⟩
    rw [← apart]
    exact safe.iopl none_given
  · rintro ⟨cs, ss, iopl⟩
    refine ⟨cs, ss, ?_, fun none_given => ?_⟩
    · change (frame.tfEflags ||| flIf) &&& flIf ≠ 0
      rw [enabled]
      decide
    · change (frame.tfEflags ||| flIf) &&& flIoplMask = 0
      rw [apart]
      exact iopl none_given

theorem sysEnvSetTrapframe_cases {envid : EnvId} {tf : Nat} {result : Int}
    (ran : sysEnvSetTrapframe k c envid tf ambient = some (result, k')) :
    (result < 0 ∧ k' = k) ∨
      ∃ e frame, result = 0 ∧ envid2env k c envid true = some e ∧ ambient.userTf = some frame ∧
        k' = k.setEnv e { k.envs e with
          envTf := { frame with
            tfCs := frame.tfCs ||| 3
            tfEflags := frame.tfEflags ||| flIf } } := by
  have failed (same : some (-eBadEnv, k) = some (result, k')) : result < 0 ∧ k' = k := by
    cases same
    exact ⟨by decide, rfl⟩
  unfold sysEnvSetTrapframe at ran
  split at ran
  · exact .inl (failed ran)
  · split at ran
    · cases ran
    · rename_i frame read
      split at ran
      · split at ran
        · cases ran
        · split at ran
          · exact .inl (failed ran)
          · cases ran
      · rename_i e found
        cases ran
        exact .inr ⟨e, frame, rfl, found, read, rfl⟩

namespace Origins

variable {s s' : Origins npages}

theorem Confined.store (confined : s.Confined) {io : EnvIdx → Bool} {env : Env npages}
    (listed : k'.Listed) (envs : k'.envs = update s.kernel.envs e env)
    (given : ∀ x, x ≠ e → io x = s.io x)
    (safe : env.envPml4e ≠ none → env.envTf.Unprivileged (io e)) :
    Confined ⟨k', io⟩ := by
  refine ⟨listed, fun {x} live => ?_⟩
  have live : (k'.envs x).envPml4e ≠ none := live
  change (k'.envs x).envTf.Unprivileged (io x)
  rw [envs] at live ⊢
  by_cases same : x = e
  · subst same
    rw [update_self] at live ⊢
    exact safe live
  · rw [update_of_ne same] at live ⊢
    rw [given x same]
    exact confined.frames live

theorem Confined.keep (confined : s.Confined) {env : Env npages} (listed : k'.Listed)
    (envs : k'.envs = update s.kernel.envs e env)
    (space : env.envPml4e = none ∨ env.envPml4e = (s.kernel.envs e).envPml4e)
    (cs : env.envTf.tfCs = (s.kernel.envs e).envTf.tfCs)
    (ss : env.envTf.tfSs = (s.kernel.envs e).envTf.tfSs)
    (eflags : env.envTf.tfEflags = (s.kernel.envs e).envTf.tfEflags) : Confined ⟨k', s.io⟩ := by
  refine confined.store listed envs (fun _ _ => rfl) fun live => ?_
  have there : s.kernel.Live e := by
    rw [Kernel.Live, ← space.resolve_left live]
    exact live
  exact (confined.frames there).congr cs ss eflags

theorem Confined.freed (confined : s.Confined) {m : Pmap npages} (listed : k'.Listed)
    (ran : envFree (s.kernel.setPmap m) e = some k') : Confined ⟨k', s.io⟩ :=
  confined.keep listed (envFree_envs ran).2.2 (.inl rfl) rfl rfl rfl

theorem inherit_call {call : Syscall} (other : call ≠ .exofork) :
    s.inherit (.call c ambient call) = s.io := by
  unfold inherit
  cases call with
  | exofork => exact absurd rfl other
  | _ => rfl

theorem setEnv_born {env : Env npages} (envs : k'.envs = update k.envs e env) (env' : Env npages) :
    (k'.setEnv e env').envs = update k.envs e env' := by
  dsimp only [Kernel.setEnv]
  rw [envs, update_idem]

theorem Confined.exofork (confined : s.Confined) (live : s.kernel.Live c)
    (listed : (sysExofork s.kernel c).2.Listed) :
    Confined ⟨(sysExofork s.kernel c).2, s.inherit (.call c ambient .exofork)⟩ := by
  cases allocated : envAlloc s.kernel (s.kernel.envs c).envId with
  | error code =>
    have same : (sysExofork s.kernel c).2 = s.kernel := by simp only [sysExofork, allocated]
    have kept : s.inherit (.call c ambient .exofork) = s.io := by
      simp only [inherit, born, allocated]
    rw [same, kept]
    exact confined
  | ok result =>
    obtain ⟨e, k₁⟩ := result
    obtain ⟨-, -, root, envs⟩ := envAlloc_envs allocated
    obtain ⟨-, absent⟩ := confined.listed.alloc allocated
    have apart : c ≠ e := by
      rintro rfl
      exact live absent
    have parent : k₁.envs c = s.kernel.envs c := by rw [envs, update_of_ne apart]
    have forked : (sysExofork s.kernel c).2 =
        k₁.setEnv e (forkedEnv (k₁.envs e) (s.kernel.envs c).envTf) := by
      simp only [sysExofork, allocated, parent, forkedEnv]
    have given : s.inherit (.call c ambient .exofork) = update s.io e (s.io c) := by
      simp only [inherit, born, allocated]
    rw [forked] at listed ⊢
    rw [given]
    refine confined.store listed (setEnv_born envs _) (fun x other => update_of_ne other _ _)
      fun _ => ?_
    rw [update_self]
    exact (confined.frames live).congr rfl rfl rfl

theorem Confined.call (confined : s.Confined) {call : Syscall}
    {outcome : Outcome} (live : s.kernel.Live c) (modest : s.Modest (.call c ambient call))
    (ran : syscall s.kernel c ambient call = some (outcome, k')) :
    Confined ⟨k', s.inherit (.call c ambient call)⟩ := by
  have effect := syscall_effect ran
  have listed := confined.listed.effect live effect
  by_cases forks : call = .exofork
  · subst forks
    obtain rfl := (Prod.mk.inj (Option.some.inj ran)).2
    exact confined.exofork live listed
  rw [inherit_call forks]
  cases effect with
  | memory after =>
    subst after
    exact ⟨listed, confined.frames⟩
  | yield after =>
    subst after
    exact confined
  | recv _ after =>
    subst after
    exact confined.keep listed rfl (.inr rfl) rfl rfl rfl
  | send _ _ _ after =>
    subst after
    exact confined.keep listed rfl (.inr rfl) rfl rfl rfl
  | exofork => exact absurd rfl forks
  | setStatus _ _ _ after =>
    subst after
    exact confined.keep listed rfl (.inr rfl) rfl rfl rfl
  | setTrapframe =>
    obtain ⟨⟨result, k₁⟩, called, same⟩ := Option.map_eq_some_iff.mp ran
    cases same
    rcases sysEnvSetTrapframe_cases called with ⟨-, rfl⟩ | ⟨e, frame, -, found, read, after⟩
    · exact confined
    · subst after
      exact confined.store listed rfl (fun _ _ => rfl) fun _ =>
        unprivileged_patched.mpr (modest e frame found read)
  | setUpcall _ after =>
    subst after
    exact confined.keep listed rfl (.inr rfl) rfl rfl rfl
  | dying _ _ _ after =>
    subst after
    exact confined.keep listed rfl (.inr rfl) rfl rfl rfl
  | destroy _ _ freed => exact confined.freed (m := s.kernel.pmap) listed freed
  | denied _ freed => exact confined.freed listed freed

theorem envSwitch_frame (k : Kernel npages) (curenv : Option EnvIdx) (number : Nat) (e x : EnvIdx) :
    ((envSwitch k curenv number e).envs x).envTf = (k.envs x).envTf ∧
      ((envSwitch k curenv number e).envs x).envPml4e = (k.envs x).envPml4e := by
  have pop {k₁ : Kernel npages} : ((popTf k₁ number e).envs x).envTf = (k₁.envs x).envTf ∧
      ((popTf k₁ number e).envs x).envPml4e = (k₁.envs x).envPml4e := by
    unfold popTf Kernel.setEnv
    by_cases same : x = e
    · subst same
      simp
    · simp [same]
  have mark {k₁ : Kernel npages} {slot : EnvIdx} {status : EnvStatus} :
      ((k₁.setStatus slot status).envs x).envTf = (k₁.envs x).envTf ∧
      ((k₁.setStatus slot status).envs x).envPml4e = (k₁.envs x).envPml4e := by
    unfold Kernel.setStatus Kernel.setEnv
    by_cases same : x = slot
    · subst same
      simp
    · simp [same]
  unfold envSwitch
  split
  · exact pop
  · rw [pop.1, pop.2, mark.1, mark.2]
    split
    · split
      · exact mark
      · exact ⟨rfl, rfl⟩
    · exact ⟨rfl, rfl⟩

theorem Confined.step (confined : s.Confined) {event : KernelEvent} (modest : s.Modest event)
    (stepped : s.step event = some s') : s'.Confined := by
  obtain ⟨k', ran, rfl⟩ := Option.map_eq_some_iff.mp stepped
  have listed := confined.listed.step ran
  cases event with
  | create binary type =>
    obtain ⟨e, k₁, m, allocated, rfl⟩ := envCreate_spec ran
    obtain ⟨-, -, root, envs⟩ := envAlloc_envs allocated
    have born : s.inherit (.create binary type) = update s.io e (type = .fs) := by
      simp only [inherit, Origins.born, allocated]
    have made : (k₁.envs e).envTf = newTrapframe := by rw [envs, update_self]; rfl
    rw [born]
    have stored (env : Env npages) :
        ((k₁.setPmap m).setEnv e env).envs = update s.kernel.envs e env := setEnv_born envs env
    refine confined.store listed (stored _) (fun x other => update_of_ne other _ _) fun _ => ?_
    rw [update_self]
    dsimp only
    rw [made]
    exact createdTf_unprivileged binary type
  | alloc parentId =>
    simp only [kernelStep] at ran
    split at ran
    · rename_i failed
      cases ran
      have born : s.inherit (.alloc parentId) = s.io := by
        simp only [inherit, Origins.born, failed]
      rw [born]
      exact confined
    · rename_i e k₁ allocated
      cases ran
      obtain ⟨-, -, root, envs⟩ := envAlloc_envs allocated
      have born : s.inherit (.alloc parentId) = update s.io e false := by
        simp only [inherit, Origins.born, allocated]
      rw [born]
      exact confined.store listed envs (fun x other => update_of_ne other _ _) fun _ =>
        newTrapframe_unprivileged _
  | free e => exact confined.freed (m := s.kernel.pmap) listed ran
  | call c ambient call =>
    obtain ⟨live, outcome, called⟩ := kernelStep_call ran
    exact confined.call live modest called
  | fault c =>
    obtain ⟨-, exit, handled⟩ := kernelStep_fault ran
    obtain ⟨m, ⟨-, freed⟩ | ⟨-, rip, rsp, rfl⟩⟩ := pageFaultHandler_spec handled
    · exact confined.freed listed freed
    · exact confined.keep listed rfl (.inr rfl) rfl rfl rfl
  | frame e tf =>
    cases ran
    exact confined.store listed rfl (fun _ _ => rfl) fun live =>
      (confined.frames live).fromUser modest.1 modest.2
  | run curenv cpu e =>
    obtain ⟨-, rfl⟩ := kernelStep_run ran
    refine ⟨listed, fun {x} live => ?_⟩
    obtain ⟨tf, space⟩ := envSwitch_frame s.kernel curenv cpu e x
    have live : ((envSwitch s.kernel curenv cpu e).envs x).envPml4e ≠ none := live
    rw [space] at live
    change ((envSwitch s.kernel curenv cpu e).envs x).envTf.Unprivileged (s.io x)
    rw [tf]
    exact confined.frames live

theorem Booted.confined (booted : s.Booted platform) : s.Confined := by
  obtain ⟨g, booted⟩ := boot_booted booted
  exact ⟨booted.tabled.listed, fun live => absurd live booted.dead⟩

theorem sample_born (guard : Origins 4096 → KernelEvent → Prop)
    (admits : ∀ s, guard s (.alloc 0)) :
    ∃ s e, Reachable (Booted sample) Origins.step guard s ∧ s.kernel.Live e ∧ s.io e = false ∧
      (s.kernel.envs e).envStatus = .runnable := by
  obtain ⟨k, g, ran, booted, room⟩ := sample_booted
  obtain ⟨e, k', g', allocated, -, spec⟩ := (booted.fresh room).alloc ⟨0, booted.dead⟩ 0
  obtain ⟨-, -, root, envs⟩ := envAlloc_envs allocated
  have stepped : Origins.step ⟨k, fun _ => false⟩ (.alloc 0) =
      some ⟨k', update (fun _ => false) e false⟩ := by
    simp only [Origins.step, kernelStep, inherit, born, allocated, Option.map_some]
  refine ⟨⟨k', update (fun _ => false) e false⟩, e,
    ⟨⟨k, fun _ => false⟩, _, ran, Along.nil.snoc (admits _) stepped⟩, spec.live, ?_, ?_⟩
  · exact update_self e false fun _ => false
  · change (k'.envs e).envStatus = .runnable
    rw [envs, update_self]
    rfl

def greedyFrame : Trapframe := { newTrapframe with tfEflags := flIoplMask }

end Origins

end Jos
