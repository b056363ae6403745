import Jos.Calls.Step

/-! The processors with their TLBs: `env_run`, `sched_halt` and `env_free` load cr3,
`tlb_invalidate` drops one page on the processor that edits a page table. -/

set_option autoImplicit false

namespace Jos

open Function Foundation

variable {npages ncpu : Nat}

/-- The kernel data, and for each processor its `curenv`, the PML4 in its cr3, none for
the one of the boot, and the translations that its TLB holds, by page number. -/
structure Cores (npages ncpu : Nat) where
  kernel : Kernel npages
  curenv : Fin ncpu → Option EnvIdx
  cr3 : Fin ncpu → Option (Fin npages)
  tlb : Fin ncpu → Nat → Option Translation

inductive CoreEvent (ncpu : Nat) where
  /-- User code uses a page, and the TLB takes its translation. -/
  | touch (cpu : Fin ncpu) (page : Nat)
  /-- What a processor does in the kernel. -/
  | enter (cpu : Fin ncpu) (event : KernelEvent)
  /-- `sched_halt` -/
  | halt (cpu : Fin ncpu)
deriving DecidableEq, Repr

/-- A page table and an address with which `tlb_invalidate` is called. -/
abbrev Invalidation (npages : Nat) := Option (Fin npages) × Nat

/-- `page_insert` and `page_remove` call `tlb_invalidate` when the entry they find is present. -/
def Pmap.tlbInvalidate (m : Pmap npages) (pml4e : Option (Fin npages)) (va : Nat) :
    List (Invalidation npages) :=
  if (m.translateIn pml4e va).isSome then [(pml4e, va)] else []

/-- `invlpg` for every call of `tlb_invalidate` with the page table of `curenv`. -/
def invlpg (calls : List (Invalidation npages)) (pml4e : Option (Fin npages))
    (tlb : Nat → Option Translation) (page : Nat) : Option Translation :=
  if ∃ call ∈ calls, call.1 = pml4e ∧ call.2 / pgSize = page then none else tlb page

/-- The calls of `tlb_invalidate` in a system call of `c`. A page call returns 0 when it
has come to `page_insert` or `page_remove` and this has not failed, which it does not where
the entry is present; `sys_ipc_try_send` when its `sys_page_map` gets past the checks. What
`env_free` invalidates is not listed: it has loaded cr3, or the table is not `curenv`'s. -/
def callInvalidations (k : Kernel npages) (c : EnvIdx) (ambient : Ambient) :
    Syscall → List (Invalidation npages)
  | .pageAlloc envid va perm =>
    match envid2env k c envid true, sysPageAlloc k c envid va perm with
    | some e, some (0, _) => k.pmap.tlbInvalidate (k.envs e).envPml4e va
    | _, _ => []
  | .pageMap srcenvid srcva dstenvid dstva perm =>
    match envid2env k c dstenvid false, sysPageMap k c srcenvid srcva dstenvid dstva perm with
    | some dst, some (0, _) => k.pmap.tlbInvalidate (k.envs dst).envPml4e dstva
    | _, _ => []
  | .pageUnmap envid va =>
    match envid2env k c envid true, sysPageUnmap k c envid va with
    | some e, some (0, _) => k.pmap.tlbInvalidate (k.envs e).envPml4e va
    | _, _ => []
  | .ipcTrySend envid value srcva perm =>
    match envid2env k c envid false, sysIpcTrySend k c envid value srcva perm ambient with
    | some dst, some (0, _) =>
      if SendsPage k dst srcva ∧ Deliverable k c dst (perm ||| pteP.setWidth 32) then
        k.pmap.tlbInvalidate (k.envs dst).envPml4e (k.envs dst).envIpcDstva
      else []
    | _, _ => []
  | _ => []

def invalidations (k : Kernel npages) : KernelEvent → List (Invalidation npages)
  | .call c ambient call => callInvalidations k c ambient call
  | _ => []

namespace Cores

/-- `lcr3`, with the `curenv` that goes with it -/
def lcr3 (s : Cores npages ncpu) (cpu : Fin ncpu) (curenv : Option EnvIdx) : Cores npages ncpu :=
  { s with
    curenv := update s.curenv cpu curenv
    cr3 := update s.cr3 cpu (curenv.bind fun e => (s.kernel.envs e).envPml4e)
    tlb := update s.tlb cpu fun _ => none }

/-- What a processor can do: the boot processor makes the first environments, the others
enter the kernel for their `curenv`. -/
def Enters (s : Cores npages ncpu) (cpu : Fin ncpu) : KernelEvent → Prop
  | .create .. => ∀ other, s.curenv other = none
  | .alloc _ => False
  | .free e | .call e .. | .fault e | .frame e _ => s.curenv cpu = some e
  | .run curenv .. => curenv = s.curenv cpu

instance (s : Cores npages ncpu) (cpu : Fin ncpu) (event : KernelEvent) :
    Decidable (s.Enters cpu event) := by
  cases event <;> unfold Enters <;> infer_instance

/-- The processors after a kernel entry that leads to `k'`. `env_run` loads cr3 when the
environment is not `curenv` already, `env_free` when it is. -/
def leave (s : Cores npages ncpu) (cpu : Fin ncpu) (event : KernelEvent) (k' : Kernel npages) :
    Cores npages ncpu :=
  let next := { s with kernel := k' }
  match event with
  | .run _ _ e => if s.curenv cpu = some e then next else next.lcr3 cpu (some e)
  | _ =>
    match s.curenv cpu with
    | none => next
    | some c =>
      if k'.Live c then
        { next with
          tlb := update s.tlb cpu
            (invlpg (invalidations s.kernel event) (s.kernel.envs c).envPml4e (s.tlb cpu)) }
      else next.lcr3 cpu none

/-- `none` says that the step is not taken here, or that the kernel panics. -/
def step (s : Cores npages ncpu) : CoreEvent ncpu → Option (Cores npages ncpu)
  | .touch cpu page =>
    if s.curenv cpu = none ∨ 2 ^ 48 ≤ page * pgSize then none
    else
      (s.kernel.pmap.translateIn (s.cr3 cpu) (page * pgSize)).map fun found =>
        { s with tlb := update s.tlb cpu (update (s.tlb cpu) page (some found)) }
  | .enter cpu event =>
    if s.Enters cpu event then (kernelStep s.kernel event).map fun k' => s.leave cpu event k'
    else none
  | .halt cpu => some (s.lcr3 cpu none)

def Alone (s : Cores npages ncpu) (cpu : Fin ncpu) (e : EnvIdx) : Prop :=
  ∀ other, other ≠ cpu → s.curenv other ≠ some e

end Cores

/-- The call edits the leaf entry of an address in the address space of `e`. -/
def Targets (k : Kernel npages) (c e : EnvIdx) (va : Nat) : Syscall → Prop
  | .pageAlloc envid va' perm => pageAllocChecks k c envid va' perm e ∧ va = va'
  | .pageMap srcenvid srcva dstenvid dstva perm =>
    (∃ src, PageMapChecks k c srcenvid srcva dstenvid dstva perm src e) ∧ va = dstva
  | .pageUnmap envid va' => (envid2env k c envid true = some e ∧ va' < utop) ∧ va = va'
  | .ipcTrySend envid _ srcva _ => (envid2env k c envid false = some e ∧
      (k.envs e).envIpcRecving = true ∧ SendsPage k e srcva) ∧ va = (k.envs e).envIpcDstva
  | _ => False

def Ends (k : Kernel npages) (c e : EnvIdx) (call : Syscall) : Prop :=
  call.checks = true ∧ e = c ∨ ∃ envid, call = .envDestroy envid ∧
    envid2env k c envid true = some e ∧ ¬ ((k.envs e).envStatus = .running ∧ c ≠ e)

/-- An address space is edited, or ended, only by a processor when no other executes in
it; the tables from 2^39 on, which all environments share, only in the own address space
of a caller that executes alone. -/
def Cores.Local (s : Cores npages ncpu) : CoreEvent ncpu → Prop
  | .enter cpu event => Orderly s.kernel event ∧
      match event with
      | .call c _ call =>
        (∀ e, Ends s.kernel c e call → s.Alone cpu e) ∧
        ∀ e va, Targets s.kernel c e va call → s.Alone cpu e ∧
          (2 ^ 39 ≤ va → c = e ∧ ∀ other, other ≠ cpu → s.curenv other = none)
      | .fault c | .free c => s.Alone cpu c
      | _ => True
  | _ => True

end Jos
