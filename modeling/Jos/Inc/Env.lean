import Jos.Inc.Mmu

/-! The environment record of inc/env.h, the trap frame of inc/trap.h and the
error numbers of inc/error.h. -/

set_option autoImplicit false

namespace Jos

def eBadEnv : Int := 2
def eInval : Int := 3
def eNoMem : Int := 4
def eNoFreeEnv : Int := 5
def eFault : Int := 6
def eNoSys : Int := 7
def eIpcNotRecv : Int := 8

def log2Nenv : Nat := 10
abbrev nenv : Nat := 1024

/-- A pointer into `envs`. -/
abbrev EnvIdx := Fin nenv

abbrev EnvId := BitVec 32

/-- The ENVX macro. -/
def envx (envid : EnvId) : EnvIdx := Fin.ofNat nenv envid.toNat

inductive EnvStatus where
  | free
  | dying
  | runnable
  | running
  | notRunnable
deriving DecidableEq, Repr, Inhabited

/-- The enumeration value of a status; `sys_env_set_status` lets 0 to 4 through. -/
def EnvStatus.ofCode : Nat → EnvStatus
  | 0 => .free
  | 1 => .dying
  | 2 => .runnable
  | 3 => .running
  | _ => .notRunnable

inductive EnvType where
  | user
  | fs
  | ns
deriving DecidableEq, Repr, Inhabited

structure PushRegs where
  regR15 : BitVec 64
  regR14 : BitVec 64
  regR13 : BitVec 64
  regR12 : BitVec 64
  regR11 : BitVec 64
  regR10 : BitVec 64
  regR9 : BitVec 64
  regR8 : BitVec 64
  regRsi : BitVec 64
  regRdi : BitVec 64
  regRbp : BitVec 64
  regRdx : BitVec 64
  regRcx : BitVec 64
  regRbx : BitVec 64
  regRax : BitVec 64
deriving DecidableEq, Repr, Inhabited

structure Trapframe where
  tfRegs : PushRegs
  tfEs : BitVec 16
  tfDs : BitVec 16
  tfTrapno : BitVec 64
  tfErr : BitVec 64
  tfRip : BitVec 64
  tfCs : BitVec 16
  tfEflags : BitVec 64
  tfRsp : BitVec 64
  tfSs : BitVec 16
deriving DecidableEq, Repr, Inhabited

def gdKt : BitVec 16 := 0x08#16
def gdUt : BitVec 16 := 0x18#16
def gdUd : BitVec 16 := 0x20#16
def flIf : BitVec 64 := 0x200#64
def flIoplMask : BitVec 64 := 0x3000#64

/-- One slot of `envs`. The page numbers are those of the pages that
`env_pml4e` points to and `env_cr3` addresses; `elf` is only kept for the
debugger and is left out. -/
structure Env (npages : Nat) where
  envTf : Trapframe
  envLink : Option EnvIdx
  envId : EnvId
  envParentId : EnvId
  envType : EnvType
  envStatus : EnvStatus
  envRuns : BitVec 32
  envCpunum : Nat
  envPml4e : Option (Fin npages)
  envCr3 : Nat
  envPgfaultUpcall : BitVec 64
  envIpcRecving : Bool
  envIpcDstva : Nat
  envIpcValue : BitVec 32
  envIpcFrom : EnvId
  envIpcPerm : BitVec 32
deriving DecidableEq, Repr

/-- What `memset` leaves in a slot of `envs`. -/
def Env.zeroed (npages : Nat) : Env npages where
  envTf := default
  envLink := none
  envId := 0
  envParentId := 0
  envType := .user
  envStatus := .free
  envRuns := 0
  envCpunum := 0
  envPml4e := none
  envCr3 := 0
  envPgfaultUpcall := 0
  envIpcRecving := false
  envIpcDstva := 0
  envIpcValue := 0
  envIpcFrom := 0
  envIpcPerm := 0

end Jos
