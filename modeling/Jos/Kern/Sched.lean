import Jos.Kern.Env

/-! The processors, `env_run` and the scheduler of kern/sched.c. The big kernel
lock makes each kernel entry one step, so between steps a processor either
executes its `curenv` in user mode or is halted without one. -/

set_option autoImplicit false

namespace Jos

variable {npages ncpu : Nat}

inductive CpuStatus where
  | unused
  | started
  | halted
deriving DecidableEq, Repr

structure CpuInfo where
  cpuStatus : CpuStatus
  cpuEnv : Option EnvIdx
deriving DecidableEq, Repr

/-- The kernel data together with the processors and the static counter of
`sched_yield`. -/
structure Machine (npages ncpu : Nat) where
  kernel : Kernel npages
  cpus : Fin ncpu → CpuInfo
  envCounter : EnvIdx

namespace Machine

def setKernel (s : Machine npages ncpu) (k : Kernel npages) : Machine npages ncpu :=
  { s with kernel := k }

def setCurenv (s : Machine npages ncpu) (cpu : Fin ncpu) (curenv : Option EnvIdx) :
    Machine npages ncpu :=
  { s with cpus := Function.update s.cpus cpu { s.cpus cpu with cpuEnv := curenv } }

def setCpuStatus (s : Machine npages ncpu) (cpu : Fin ncpu) (status : CpuStatus) :
    Machine npages ncpu :=
  { s with cpus := Function.update s.cpus cpu { s.cpus cpu with cpuStatus := status } }

def curenv (s : Machine npages ncpu) (cpu : Fin ncpu) : Option EnvIdx := (s.cpus cpu).cpuEnv

def status (s : Machine npages ncpu) (e : EnvIdx) : EnvStatus := (s.kernel.envs e).envStatus

end Machine

/-- The count of runs and the processor number that `env_run` and `env_pop_tf`
record. -/
def popTf (k : Kernel npages) (cpu : Nat) (e : EnvIdx) : Kernel npages :=
  k.setEnv e { k.envs e with envRuns := (k.envs e).envRuns + 1, envCpunum := cpu }

/-- What `env_run` writes to `envs`. When `e` is `curenv` already, its status is
left as it is. -/
def envSwitch (k : Kernel npages) (curenv : Option EnvIdx) (cpu : Nat) (e : EnvIdx) :
    Kernel npages :=
  if curenv = some e then popTf k cpu e
  else
    let k :=
      match curenv with
      | some old => if (k.envs old).envStatus = EnvStatus.running then k.setStatus old .runnable else k
      | none => k
    popTf (k.setStatus e .running) cpu e

def envRun (s : Machine npages ncpu) (cpu : Fin ncpu) (e : EnvIdx) : Machine npages ncpu :=
  (s.setCurenv cpu (some e)).setKernel (envSwitch s.kernel (s.curenv cpu) cpu.val e)

/-- The slots in the order in which the loop of `sched_yield` looks at them. -/
def schedOrder (counter : EnvIdx) : List EnvIdx :=
  (List.range nenv).map fun i => Fin.ofNat nenv (counter.val + (i + 1))

/-- The environment that the loop of `sched_yield` selects. -/
def nextRunnable (k : Kernel npages) (counter : EnvIdx) : Option EnvIdx :=
  (schedOrder counter).find? fun e => (k.envs e).envStatus = .runnable

/-- The environments because of which `sched_halt` does not enter the monitor,
which never returns. -/
def EnvStatus.alive : EnvStatus → Bool
  | .runnable | .running | .dying => true
  | .free | .notRunnable => false

def schedHalt (s : Machine npages ncpu) (cpu : Fin ncpu) : Option (Machine npages ncpu) :=
  if ∃ e, (s.kernel.envs e).envStatus.alive then
    some ((s.setCurenv cpu none).setCpuStatus cpu .halted)
  else none

def schedYield (s : Machine npages ncpu) (cpu : Fin ncpu) : Option (Machine npages ncpu) :=
  match nextRunnable s.kernel s.envCounter with
  | some e => some (envRun { s with envCounter := e } cpu e)
  | none =>
    match s.curenv cpu with
    | some e => if s.status e = .running then some (envRun s cpu e) else schedHalt s cpu
    | none => schedHalt s cpu

end Jos
