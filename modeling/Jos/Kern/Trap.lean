import Jos.Kern.Sched
import Jos.Kern.Syscall

/-! Kernel entries: `trap`, `trap_dispatch` and `page_fault_handler` of
kern/trap.c. -/

set_option autoImplicit false

namespace Jos

variable {npages ncpu : Nat}

def tBrkpt : Nat := 3
def tPgflt : Nat := 14
def tSyscall : Nat := 48
def irqOffset : Nat := 32
def irqTimer : Nat := 0
def irqKbd : Nat := 1
def irqSerial : Nat := 4
def irqSpurious : Nat := 7

/-- `sizeof(struct UTrapframe)` -/
def utrapframeSize : Nat := 160

inductive Exit where
  /-- Returns to `trap`, which runs `curenv` if it is still running. -/
  | toTrap
  /-- Runs `curenv` at once. -/
  | toUser
  /-- Calls `sched_yield`. -/
  | toSched
  /-- Has set `curenv` to NULL and calls `sched_yield`. -/
  | toSchedAfterExit
deriving DecidableEq, Repr

/-- `env_destroy(curenv)` from a handler. -/
def destroyCurenv (k : Kernel npages) (curenv : EnvIdx) : Option (Exit × Kernel npages) := do
  let (_, k) ← envDestroy k curenv curenv
  return (.toSchedAfterExit, k)

/-- A fault in user mode. The record on the exception stack is user memory; the
store to it faults in the kernel when the page there is read-only. -/
def pageFaultHandler (k : Kernel npages) (curenv : EnvIdx) : Option (Exit × Kernel npages) :=
  if (k.envs curenv).envPgfaultUpcall = 0 then destroyCurenv k curenv
  else do
    let (passed, k) ← userMemAssert k curenv (uxstackTop - pgSize) pgSize (pteW ||| pteU ||| pteP)
    if ¬ passed then return (.toSchedAfterExit, k)
    else
      let env := k.envs curenv
      let rsp := env.envTf.tfRsp.toNat
      let nested := rsp < uxstackTop ∧ rsp > uxstackTop - pgSize
      if nested ∧ rsp - utrapframeSize - 8 < uxstackTop - pgSize then destroyCurenv k curenv
      else
        let utf := if nested then rsp - utrapframeSize - 8 else uxstackTop - utrapframeSize
        let found ← k.pmap.translateIn env.envPml4e utf
        if found.writable then
          return (.toUser, k.setEnv curenv
            { env with
              envTf :=
                { env.envTf with
                  tfRip := env.envPgfaultUpcall
                  tfRsp := BitVec.ofNat 64 utf } })
        else none

def Trapframe.request (tf : Trapframe) : Syscall :=
  .ofRegisters tf.tfRegs.regRax tf.tfRegs.regRdx tf.tfRegs.regRcx tf.tfRegs.regRbx tf.tfRegs.regRdi
    tf.tfRegs.regRsi

/-- A trap from user mode, after `curenv->env_tf` has been saved. The tick count
and the console buffers are not modelled. -/
def trapDispatch (k : Kernel npages) (curenv : EnvIdx) (ambient : Ambient) :
    Option (Exit × Kernel npages) :=
  let tf := (k.envs curenv).envTf
  let trapno := tf.tfTrapno.toNat
  if trapno = tPgflt then pageFaultHandler k curenv
  else if trapno = tSyscall then do
    let regs := tf.tfRegs
    let call := Syscall.ofRegisters regs.regRax regs.regRdx regs.regRcx regs.regRbx regs.regRdi
      regs.regRsi
    let (outcome, k) ← syscall k curenv ambient call
    match outcome with
    | .returns value =>
      let env := k.envs curenv
      let regs := { env.envTf.tfRegs with regRax := BitVec.ofInt 64 value }
      return (.toTrap, k.setEnv curenv { env with envTf := { env.envTf with tfRegs := regs } })
    | .yields => return (.toSched, k)
    | .exits => return (.toSchedAfterExit, k)
  else if trapno = irqOffset + irqSpurious then some (.toTrap, k)
  else if trapno = irqOffset + irqTimer ∨ trapno = irqOffset + irqKbd ∨
      trapno = irqOffset + irqSerial then some (.toSched, k)
  else destroyCurenv k curenv

/-- What `trap` and the handlers do to leave the kernel. -/
def leave (s : Machine npages ncpu) (cpu : Fin ncpu) (curenv : EnvIdx) :
    Exit → Option (Machine npages ncpu)
  | .toTrap =>
    if s.status curenv = .running then some (envRun s cpu curenv) else schedYield s cpu
  | .toUser => some (envRun s cpu curenv)
  | .toSched => schedYield s cpu
  | .toSchedAfterExit => schedYield (s.setCurenv cpu none) cpu

def trapUser (s : Machine npages ncpu) (cpu : Fin ncpu) (curenv : EnvIdx) (tf : Trapframe)
    (ambient : Ambient) : Option (Machine npages ncpu) :=
  if s.status curenv = .dying then do
    let k ← envFree s.kernel curenv
    schedYield ((s.setKernel k).setCurenv cpu none) cpu
  else do
    let k := s.kernel.setEnv curenv { s.kernel.envs curenv with envTf := tf }
    let (exit, k) ← trapDispatch k curenv ambient
    leave (s.setKernel k) cpu curenv exit

/-- One kernel entry of a processor: a trap of the environment it executes, or,
when it is halted or has just been started, the interrupt after which it looks
for work. -/
structure Entry (ncpu : Nat) where
  cpu : Fin ncpu
  tf : Trapframe
  ambient : Ambient
deriving DecidableEq, Repr

def trap (s : Machine npages ncpu) (entry : Entry ncpu) : Option (Machine npages ncpu) :=
  let s := s.setCpuStatus entry.cpu .started
  match s.curenv entry.cpu with
  | some curenv => trapUser s entry.cpu curenv entry.tf entry.ambient
  | none => schedYield s entry.cpu

end Jos
