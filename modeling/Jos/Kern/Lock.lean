import Jos.Kern.Boot
import Jos.Kern.Trap

/-! The big kernel lock, and the ways of a processor through the kernel. Each
`lock_kernel` and `unlock_kernel` is a step of its own, and so is what a
processor does between them: `trap` of kern/trap.c, `sched_yield` and
`sched_halt` of kern/sched.c, `env_run` of kern/env.c, `i386_init`, `boot_aps`
and `mp_main` of kern/init.c. -/

set_option autoImplicit false

namespace Jos

open Function

variable {npages ncpu : Nat}

/-- `struct spinlock`, without the name and the recorded call stack -/
structure Spinlock (ncpu : Nat) where
  locked : Bool
  cpu : Option (Fin ncpu)
deriving DecidableEq, Repr

def Spinlock.holding (lk : Spinlock ncpu) (cpu : Fin ncpu) : Prop :=
  lk.locked = true ∧ lk.cpu = some cpu

instance (lk : Spinlock ncpu) (cpu : Fin ncpu) : Decidable (lk.holding cpu) :=
  inferInstanceAs (Decidable (_ ∧ _))

inductive LockCall where
  | lock
  | unlock
deriving DecidableEq, Repr

/-- The frame that a trap pushes: from user mode, or, for an interrupt that ends
the `hlt` of `sched_halt`, from the kernel. -/
inductive Frame where
  | user (tf : Trapframe) (ambient : Ambient)
  | kernel (trapno : Nat)
deriving DecidableEq, Repr

inductive Spot (ncpu : Nat) where
  /-- An application processor that has not been started. -/
  | off
  /-- `i386_init` before `lock_kernel` -/
  | i386Init
  /-- `boot_aps` turns to a processor. -/
  | bootAps (c : Nat)
  /-- `boot_aps` waits for a processor. -/
  | bootWait (c : Fin ncpu)
  | envCreate (binaries : List (Binary × EnvType))
  /-- `mp_main` before it announces itself -/
  | mpMain
  | user
  /-- The `hlt` of `sched_halt` -/
  | halted
  /-- The entry of `trap` -/
  | trap (frame : Frame)
  /-- `trap` when it looks at `tf_cs` -/
  | mode (frame : Frame)
  /-- `trap` for a frame from user mode, after `lock_kernel` -/
  | handle (tf : Trapframe) (ambient : Ambient)
  | schedYield
  | schedHalt
  | envRun (e : EnvIdx)
  /-- In `lock_kernel` -/
  | locking (next : Spot ncpu)
  /-- In `unlock_kernel` -/
  | unlocking (next : Spot ncpu)
  /-- The kernel monitor, which does not return -/
  | stopped
deriving DecidableEq, Repr

/-- All processors. `calls` lists what each has done to the lock since it last
entered the kernel. -/
structure Smp (npages ncpu : Nat) where
  machine : Machine npages ncpu
  lock : Spinlock ncpu
  panicstr : Bool
  bootcpu : Fin ncpu
  binaries : List (Binary × EnvType)
  spot : Fin ncpu → Spot ncpu
  calls : Fin ncpu → List LockCall

namespace Smp

def goto (s : Smp npages ncpu) (c : Fin ncpu) (spot : Spot ncpu) : Smp npages ncpu :=
  { s with spot := update s.spot c spot }

def record (s : Smp npages ncpu) (c : Fin ncpu) (calls : List LockCall) : Smp npages ncpu :=
  { s with calls := update s.calls c calls }

def cpuStatus (s : Smp npages ncpu) (c : Fin ncpu) : CpuStatus := (s.machine.cpus c).cpuStatus

def setKernel (s : Smp npages ncpu) (k : Kernel npages) : Smp npages ncpu :=
  { s with machine := s.machine.setKernel k }

def setCurenv (s : Smp npages ncpu) (c : Fin ncpu) (curenv : Option EnvIdx) : Smp npages ncpu :=
  { s with machine := s.machine.setCurenv c curenv }

def setCpuStatus (s : Smp npages ncpu) (c : Fin ncpu) (status : CpuStatus) : Smp npages ncpu :=
  { s with machine := s.machine.setCpuStatus c status }

def panic (s : Smp npages ncpu) (c : Fin ncpu) : Smp npages ncpu :=
  { s.goto c .stopped with panicstr := true }

def spinLock (s : Smp npages ncpu) (c : Fin ncpu) (next : Spot ncpu) : Smp npages ncpu :=
  if s.lock.holding c then s.panic c
  else if s.lock.locked then s
  else ({ s with lock := ⟨true, some c⟩ }.record c (s.calls c ++ [LockCall.lock])).goto c next

def spinUnlock (s : Smp npages ncpu) (c : Fin ncpu) (next : Spot ncpu) : Smp npages ncpu :=
  if s.lock.holding c then
    ({ s with lock := ⟨false, none⟩ }.record c (s.calls c ++ [LockCall.unlock])).goto c next
  else s.panic c

/-- The end of `trap` -/
def trapEnd (s : Smp npages ncpu) (c : Fin ncpu) : Smp npages ncpu :=
  match s.machine.curenv c with
  | some e => if s.machine.status e = .running then s.goto c (.envRun e) else s.goto c .schedYield
  | none => s.goto c .schedYield

/-- What a handler that has returned to `trap`, or has not, does next. -/
def leave (s : Smp npages ncpu) (c : Fin ncpu) (curenv : EnvIdx) : Exit → Smp npages ncpu
  | .toTrap => s.trapEnd c
  | .toUser => s.goto c (.envRun curenv)
  | .toSched => s.goto c .schedYield
  | .toSchedAfterExit => (s.setCurenv c none).goto c .schedYield

/-- `trap` for a frame from user mode -/
def handle (s : Smp npages ncpu) (c : Fin ncpu) (tf : Trapframe) (ambient : Ambient) :
    Smp npages ncpu :=
  match s.machine.curenv c with
  | none => s.panic c
  | some e =>
    if s.machine.status e = .dying then
      match envFree s.machine.kernel e with
      | none => s.panic c
      | some k => ((s.setKernel k).setCurenv c none).goto c .schedYield
    else
      let k := s.machine.kernel.setEnv e { s.machine.kernel.envs e with envTf := tf }
      match trapDispatch k e ambient with
      | none => s.panic c
      | some (exit, k) => (s.setKernel k).leave c e exit

/-- `trap_dispatch` and the end of `trap` for an interrupt of the halted kernel -/
def woken (s : Smp npages ncpu) (c : Fin ncpu) (trapno : Nat) : Smp npages ncpu :=
  if trapno = irqOffset + irqSpurious then s.trapEnd c
  else if trapno = irqOffset + irqTimer ∨ trapno = irqOffset + irqKbd ∨
      trapno = irqOffset + irqSerial then s.goto c .schedYield
  else s.panic c

/-- The next step of a processor, unless it is outside the kernel or in the
monitor. -/
def advance (s : Smp npages ncpu) (c : Fin ncpu) : Option (Smp npages ncpu) :=
  match s.spot c with
  | .off | .user | .halted | .stopped => none
  | .i386Init => some (s.goto c (.locking (.bootAps 0)))
  | .bootAps next =>
    if bound : next < ncpu then
      if ⟨next, bound⟩ = c then some (s.goto c (.bootAps (next + 1)))
      else
        -- `lapic_startap`; every processor but this one is off until its turn
        let s := if s.spot ⟨next, bound⟩ = .off then s.goto ⟨next, bound⟩ .mpMain else s
        some (s.goto c (.bootWait ⟨next, bound⟩))
    else some (s.goto c (.envCreate s.binaries))
  | .bootWait other =>
    if s.cpuStatus other = .started then some (s.goto c (.bootAps (other.val + 1))) else some s
  | .envCreate [] => some (s.goto c .schedYield)
  | .envCreate ((binary, type) :: rest) =>
    match Jos.envCreate s.machine.kernel binary type with
    | none => some (s.panic c)
    | some k => some ((s.setKernel k).goto c (.envCreate rest))
  | .mpMain => some ((s.setCpuStatus c .started).goto c (.locking .schedYield))
  | .trap frame =>
    if s.panicstr then some (s.goto c .stopped)
    else
      let woken := s.cpuStatus c = .halted
      let s := s.setCpuStatus c .started
      some (s.goto c (if woken then .locking (.mode frame) else .mode frame))
  | .mode (.user tf ambient) => some (s.goto c (.locking (.handle tf ambient)))
  | .mode (.kernel trapno) => some (s.woken c trapno)
  | .handle tf ambient => some (s.handle c tf ambient)
  | .schedYield =>
    match nextRunnable s.machine.kernel s.machine.envCounter with
    | some e => some ({ s with machine := { s.machine with envCounter := e } }.goto c (.envRun e))
    | none =>
      match s.machine.curenv c with
      | some e =>
        if s.machine.status e = .running then some (s.goto c (.envRun e))
        else some (s.goto c .schedHalt)
      | none => some (s.goto c .schedHalt)
  | .schedHalt =>
    if ∃ e, (s.machine.kernel.envs e).envStatus.alive then
      some (((s.setCurenv c none).setCpuStatus c .halted).goto c (.unlocking .halted))
    else some (s.goto c .stopped)
  | .envRun e =>
    some ({ s with machine := Jos.envRun s.machine c e }.goto c (.unlocking .user))
  | .locking next => some (s.spinLock c next)
  | .unlocking next => some (s.spinUnlock c next)

end Smp

inductive SmpEvent (ncpu : Nat) where
  | advance (c : Fin ncpu)
  /-- A trap from user mode, or an interrupt of a halted processor. -/
  | enter (c : Fin ncpu) (frame : Frame)
deriving DecidableEq, Repr

namespace Smp

def step (s : Smp npages ncpu) : SmpEvent ncpu → Option (Smp npages ncpu)
  | .advance c => s.advance c
  | .enter c frame =>
    match s.spot c, frame with
    | .user, .user _ _ | .halted, .kernel _ => some ((s.goto c (.trap frame)).record c [])
    | _, _ => none

/-- The processors when the boot processor comes to `lock_kernel` in
`i386_init`, and the others are off. -/
structure Booting (platform : Platform npages) (s : Smp npages ncpu) : Prop where
  booted : boot platform = some s.machine.kernel
  free : s.lock = ⟨false, none⟩
  calls : ∀ c, s.calls c = []
  boot : s.spot s.bootcpu = .i386Init ∧ s.cpuStatus s.bootcpu = .started
  off : ∀ c, c ≠ s.bootcpu → s.spot c = .off ∧ s.cpuStatus c = .unused

end Smp

end Jos
