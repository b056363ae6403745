import Jos.Kern.Trap

/-! The kernel data as a state machine. Everything that the kernel does to it
between two states is one of these events, whichever processor does it; every
call that an environment can make is one, with any arguments. -/

set_option autoImplicit false

namespace Jos

variable {npages : Nat}

inductive KernelEvent where
  /-- `env_create`, at the end of the boot. -/
  | create (binary : Binary) (type : EnvType)
  | alloc (parentId : EnvId)
  | free (e : EnvIdx)
  /-- A system call of the environment `c`. -/
  | call (c : EnvIdx) (ambient : Ambient) (call : Syscall)
  /-- A page fault of the environment `c` in user mode. -/
  | fault (c : EnvIdx)
  /-- A store to the saved registers of an environment: the trap frame on entry,
  or the value that a call returns. -/
  | frame (e : EnvIdx) (tf : Trapframe)
  /-- `env_run` of `e` on a processor with some `curenv`. -/
  | run (curenv : Option EnvIdx) (cpu : Nat) (e : EnvIdx)
deriving DecidableEq, Repr

namespace Kernel

def Live (k : Kernel npages) (e : EnvIdx) : Prop := (k.envs e).envPml4e ≠ none

instance (k : Kernel npages) (e : EnvIdx) : Decidable (k.Live e) :=
  inferInstanceAs (Decidable (_ ≠ _))

theorem live_of {k : Kernel npages} {e : EnvIdx} {root : Fin npages}
    (rooted : (k.envs e).envPml4e = some root) : k.Live e := by
  rw [Live, rooted]
  exact Option.some_ne_none root

theorem Live.root {k : Kernel npages} {e : EnvIdx} (live : k.Live e) :
    ∃ root, (k.envs e).envPml4e = some root := Option.ne_none_iff_exists'.mp live

end Kernel

/-- One event. A failed `env_alloc` changes nothing; calls and faults come from
environments that have a page table; the scheduler runs what is runnable, or
what runs already. `none` says that the kernel panics or that the event cannot
happen. -/
def kernelStep (k : Kernel npages) : KernelEvent → Option (Kernel npages)
  | .create binary type => envCreate k binary type
  | .alloc parentId =>
    match envAlloc k parentId with
    | .error _ => some k
    | .ok (_, k) => some k
  | .free e => envFree k e
  | .call c ambient call =>
    if k.Live c then (syscall k c ambient call).map Prod.snd else none
  | .fault c => if k.Live c then (pageFaultHandler k c).map Prod.snd else none
  | .frame e tf => some (k.setEnv e { k.envs e with envTf := tf })
  | .run curenv cpu e =>
    if curenv = some e ∨ (k.envs e).envStatus = .runnable then some (envSwitch k curenv cpu e)
    else none

variable {k k' : Kernel npages}

theorem kernelStep_alloc {parentId : EnvId} (ran : kernelStep k (.alloc parentId) = some k') :
    k' = k ∨ ∃ e, envAlloc k parentId = .ok (e, k') := by
  simp only [kernelStep] at ran
  split at ran
  · exact .inl (Option.some.inj ran).symm
  · cases ran
    exact .inr ⟨_, ‹_›⟩

theorem kernelStep_call {c : EnvIdx} {ambient : Ambient} {call : Syscall}
    (ran : kernelStep k (.call c ambient call) = some k') :
    k.Live c ∧ ∃ outcome, syscall k c ambient call = some (outcome, k') := by
  simp only [kernelStep] at ran
  split at ran
  · rename_i live
    obtain ⟨⟨outcome, k₁⟩, called, rfl⟩ := Option.map_eq_some_iff.mp ran
    exact ⟨live, outcome, called⟩
  · cases ran

theorem kernelStep_fault {c : EnvIdx} (ran : kernelStep k (.fault c) = some k') :
    k.Live c ∧ ∃ exit, pageFaultHandler k c = some (exit, k') := by
  simp only [kernelStep] at ran
  split at ran
  · rename_i live
    obtain ⟨⟨exit, k₁⟩, handled, rfl⟩ := Option.map_eq_some_iff.mp ran
    exact ⟨live, exit, handled⟩
  · cases ran

theorem kernelStep_run {curenv : Option EnvIdx} {cpu : Nat} {e : EnvIdx}
    (ran : kernelStep k (.run curenv cpu e) = some k') :
    (curenv = some e ∨ (k.envs e).envStatus = .runnable) ∧ k' = envSwitch k curenv cpu e := by
  simp only [kernelStep] at ran
  split at ran
  · rename_i ready
    exact ⟨ready, (Option.some.inj ran).symm⟩
  · cases ran

end Jos
