import Jos.Kern.Env
import Jos.Kern.Translate

/-! The system calls of kern/syscall.c. A call either returns a value, gives up
the processor through `sched_yield` and does not return, or has torn down its
own environment and goes on to the scheduler. -/

set_option autoImplicit false

namespace Jos

variable {npages : Nat}

inductive Outcome where
  | returns (value : Int)
  | yields
  | exits
deriving DecidableEq, Repr

/-- What a call reads that is not part of the kernel data modelled here. -/
structure Ambient where
  /-- The entry that `*pte_store` reads when `page_lookup` has not set it;
  `none` when that access faults. -/
  stalePte : Option Pte
  /-- The answer of the console, the clock or the network card. -/
  device : Int
  /-- The trap frame at a user pointer; `none` when the pointer does not point
  to memory that the caller may write. -/
  userTf : Option Trapframe
deriving DecidableEq, Repr

/-- The test of `perm` that the page calls share. -/
def permValid (perm : BitVec 32) : Bool :=
  perm &&& pteU.setWidth 32 ≠ 0 ∧ perm &&& pteP.setWidth 32 ≠ 0 ∧
    perm &&& ~~~(pteSyscall.setWidth 32) = 0

/-- `env_destroy` on the caller when the check fails; it does not return then. -/
def userMemAssert (k : Kernel npages) (curenv : EnvIdx) (va len : Nat) (perm : BitVec 12) :
    Option (Bool × Kernel npages) := do
  let (passed, m) ← userMemCheck k.pmap (k.envs curenv).envPml4e va len (perm ||| pteU)
  let k := k.setPmap m
  if passed then return (true, k)
  else
    let (_, k) ← envDestroy k curenv curenv
    return (false, k)

/-- A call that checks a user buffer and then answers with what a device says. -/
def checkedCall (k : Kernel npages) (curenv : EnvIdx) (va len : Nat) (answer : Int) :
    Option (Outcome × Kernel npages) := do
  let (passed, k) ← userMemAssert k curenv va len pteU
  return (if passed then .returns answer else .exits, k)

def sysCputs (k : Kernel npages) (curenv : EnvIdx) (s len : Nat) :
    Option (Outcome × Kernel npages) :=
  checkedCall k curenv s len 0

def sysNetRx (k : Kernel npages) (curenv : EnvIdx) (buf : Nat) (ambient : Ambient) :
    Option (Outcome × Kernel npages) :=
  checkedCall k curenv buf pgSize ambient.device

def sysNetTx (k : Kernel npages) (curenv : EnvIdx) (buf size : Nat) (ambient : Ambient) :
    Option (Outcome × Kernel npages) :=
  checkedCall k curenv buf size ambient.device

def sysGetenvid (k : Kernel npages) (curenv : EnvIdx) : Int := (k.envs curenv).envId.toInt

def sysEnvDestroy (k : Kernel npages) (curenv : EnvIdx) (envid : EnvId) :
    Option (Outcome × Kernel npages) :=
  match envid2env k curenv envid true with
  | none => some (.returns (-eBadEnv), k)
  | some e => do
      let (destroyed, k) ← envDestroy k curenv e
      return (if destroyed = .exits then .exits else .returns 0, k)

def sysExofork (k : Kernel npages) (curenv : EnvIdx) : Int × Kernel npages :=
  match envAlloc k (k.envs curenv).envId with
  | .error result => (result, k)
  | .ok (e, k) =>
    let tf := (k.envs curenv).envTf
    let env :=
      { k.envs e with
        envStatus := .notRunnable
        envTf := { tf with tfRegs := { tf.tfRegs with regRax := 0 } } }
    (env.envId.toInt, k.setEnv e env)

def sysEnvSetStatus (k : Kernel npages) (curenv : EnvIdx) (envid : EnvId) (status : BitVec 32) :
    Int × Kernel npages :=
  match envid2env k curenv envid true with
  | none => (-eBadEnv, k)
  | some e =>
    if status.toInt < 0 ∨ status.toInt > 4 then (-eInval, k)
    else (0, k.setStatus e (EnvStatus.ofCode status.toNat))

/-- The result is unsigned, so the test for a negative one never succeeds: for a
bad `envid` the frame is stored at address 0 of the caller's address space and
the error is returned, unless that store faults. -/
def sysEnvSetTrapframe (k : Kernel npages) (curenv : EnvIdx) (envid : EnvId) (tf : Nat)
    (ambient : Ambient) : Option (Int × Kernel npages) :=
  if tf = 0 then some (-eBadEnv, k)
  else
    match ambient.userTf with
    | none => none
    | some frame =>
      match envid2env k curenv envid true with
      | none =>
        match k.pmap.translateIn (k.envs curenv).envPml4e 0 with
        | none => none
        | some found => if found.writable then some (-eBadEnv, k) else none
      | some e =>
        let frame := { frame with tfCs := frame.tfCs ||| 3, tfEflags := frame.tfEflags ||| flIf }
        some (0, k.setEnv e { k.envs e with envTf := frame })

def sysEnvSetPgfaultUpcall (k : Kernel npages) (curenv : EnvIdx) (envid : EnvId)
    (func : BitVec 64) : Int × Kernel npages :=
  match envid2env k curenv envid true with
  | none => (-eBadEnv, k)
  | some e => (0, k.setEnv e { k.envs e with envPgfaultUpcall := func })

def sysPageAlloc (k : Kernel npages) (curenv : EnvIdx) (envid : EnvId) (va : Nat)
    (perm : BitVec 32) : Option (Int × Kernel npages) :=
  match envid2env k curenv envid true with
  | none => some (-eBadEnv, k)
  | some e =>
    if ¬ permValid perm then some (-eInval, k)
    else if va % pgSize ≠ 0 ∨ va > utop then some (-eInval, k)
    else
      match pageAlloc k.pmap false with
      | none => some (-eNoMem, k)
      | some (pp, m) => do
          let (result, m) ← pageInsert m (k.envs e).envPml4e pp va (perm.setWidth 12 ||| pteP)
          return (result, k.setPmap m)

/-- The permission to write to the target environment is not checked: the third
argument of the second `envid2env` is 0. -/
def sysPageMap (k : Kernel npages) (curenv : EnvIdx) (srcenvid : EnvId) (srcva : Nat)
    (dstenvid : EnvId) (dstva : Nat) (perm : BitVec 32) : Option (Int × Kernel npages) :=
  match envid2env k curenv srcenvid true with
  | none => some (-eBadEnv, k)
  | some src =>
    match envid2env k curenv dstenvid false with
    | none => some (-eBadEnv, k)
    | some dst =>
      if ¬ permValid perm then some (-eInval, k)
      else if (dstva % pgSize ≠ 0 ∨ dstva > utop) ∨ (srcva % pgSize ≠ 0 ∨ srcva > utop) then
        some (-eInval, k)
      else do
        let (found, m) ← pageLookup k.pmap (k.envs src).envPml4e srcva
        match found with
        | none => return (-eInval, k.setPmap m)
        | some (pp, slot) =>
          if ¬ (m.entry slot).writable ∧ perm &&& pteW.setWidth 32 ≠ 0 then
            return (-eInval, k.setPmap m)
          else
            let (result, m) ← pageInsert m (k.envs dst).envPml4e pp dstva (perm.setWidth 12)
            return (result, k.setPmap m)

def sysPageUnmap (k : Kernel npages) (curenv : EnvIdx) (envid : EnvId) (va : Nat) :
    Option (Int × Kernel npages) :=
  match envid2env k curenv envid true with
  | none => some (-eBadEnv, k)
  | some e =>
    if va = 0 ∨ va ≥ utop ∨ va % pgSize ≠ 0 then some (-eInval, k)
    else do
      let m ← pageRemove k.pmap (k.envs e).envPml4e va
      return (0, k.setPmap m)

/-- The part of `sys_ipc_try_send` after its checks. The error of the nested
`sys_page_map` is negative, so the test `0 <` lets it pass. -/
def ipcDeliver (k : Kernel npages) (curenv dst : EnvIdx) (value : BitVec 32) (srcva : Nat)
    (perm : BitVec 32) : Option (Int × Kernel npages) := do
  let src := k.envs curenv
  let k := k.setEnv dst
    { k.envs dst with
      envIpcRecving := false
      envIpcFrom := src.envId
      envIpcValue := value }
  let dstva := (k.envs dst).envIpcDstva
  if srcva < utop ∧ dstva < utop then
    let k := k.setEnv dst { k.envs dst with envIpcPerm := perm }
    let (result, k) ← sysPageMap k curenv src.envId srcva (k.envs dst).envId dstva perm
    if 0 < result then return (-eNoMem, k)
    else return (0, k.setStatus dst .runnable)
  else return (0, k.setStatus dst .runnable)

def sysIpcTrySend (k : Kernel npages) (curenv : EnvIdx) (envid : EnvId) (value : BitVec 32)
    (srcva : Nat) (perm : BitVec 32) (ambient : Ambient) : Option (Int × Kernel npages) :=
  let perm := perm ||| pteP.setWidth 32
  match envid2env k curenv envid false with
  | none => some (-eBadEnv, k)
  | some dst =>
    if ¬ (k.envs dst).envIpcRecving then some (-eIpcNotRecv, k)
    else do
      let (found, m) ← pageLookup k.pmap (k.envs curenv).envPml4e srcva
      let k := k.setPmap m
      if found.isNone ∧ srcva < utop then return (-eInval, k)
      else
        let pte ←
          (match found with
          | some (_, slot) => some (m.entry slot)
          | none => ambient.stalePte)
        let srcperm := pte.perm &&& pteSyscall
        if srcva < utop ∧ (srcva % pgSize ≠ 0 ∨ srcperm &&& (pteU ||| pteP) ≠ pteU ||| pteP) then
          return (-eInval, k)
        else if srcva < utop ∧ perm &&& pteW.setWidth 32 ≠ 0 ∧ srcperm &&& pteW = 0 then
          return (-eInval, k)
        else if envid = (k.envs curenv).envId then none
        else ipcDeliver k curenv dst value srcva perm

def sysIpcRecv (k : Kernel npages) (curenv : EnvIdx) (dstva : Nat) :
    Outcome × Kernel npages :=
  if dstva < utop ∧ dstva % pgSize ≠ 0 then (.returns (-eInval), k)
  else
    let env := k.envs curenv
    let env := if dstva < utop then { env with envIpcDstva := dstva } else env
    let tf := env.envTf
    (.yields, k.setEnv curenv
      { env with
        envIpcRecving := true
        envStatus := .notRunnable
        envTf := { tf with tfRegs := { tf.tfRegs with regRax := 0 } } })

/-- A system call with its arguments, converted as the calls in `syscall` do. -/
inductive Syscall where
  | cputs (s len : Nat)
  | cgetc
  | getenvid
  | envDestroy (envid : EnvId)
  | pageAlloc (envid : EnvId) (va : Nat) (perm : BitVec 32)
  | pageMap (srcenvid : EnvId) (srcva : Nat) (dstenvid : EnvId) (dstva : Nat) (perm : BitVec 32)
  | pageUnmap (envid : EnvId) (va : Nat)
  | exofork
  | envSetStatus (envid : EnvId) (status : BitVec 32)
  | envSetTrapframe (envid : EnvId) (tf : Nat)
  | envSetPgfaultUpcall (envid : EnvId) (func : BitVec 64)
  | yield
  | ipcTrySend (envid : EnvId) (value : BitVec 32) (srcva : Nat) (perm : BitVec 32)
  | ipcRecv (dstva : Nat)
  | timeMsec
  | netTx (buf size : Nat)
  | netRx (buf : Nat)
  | noSys
deriving DecidableEq, Repr

/-- The `switch` of `syscall`, with the numbers of inc/syscall.h. -/
def Syscall.ofRegisters (syscallno a1 a2 a3 a4 a5 : BitVec 64) : Syscall :=
  let int (a : BitVec 64) : BitVec 32 := a.setWidth 32
  match syscallno.toNat with
  | 0 => .cputs a1.toNat a2.toNat
  | 1 => .cgetc
  | 2 => .getenvid
  | 3 => .envDestroy (int a1)
  | 4 => .pageAlloc (int a1) a2.toNat (int a3)
  | 5 => .pageMap (int a1) a2.toNat (int a3) a4.toNat (int a5)
  | 6 => .pageUnmap (int a1) a2.toNat
  | 7 => .exofork
  | 8 => .envSetStatus (int a1) (int a2)
  | 9 => .envSetTrapframe (int a1) a2.toNat
  | 10 => .envSetPgfaultUpcall (int a1) a2
  | 11 => .yield
  | 12 => .ipcTrySend (int a1) (int a2) a3.toNat (int a4)
  | 13 => .ipcRecv a1.toNat
  | 14 => .timeMsec
  | 15 => .netTx a1.toNat a2.toNat
  | 16 => .netRx a1.toNat
  | _ => .noSys

def returning (result : Option (Int × Kernel npages)) : Option (Outcome × Kernel npages) :=
  result.map fun (value, k) => (.returns value, k)

/-- One system call of `curenv`. -/
def syscall (k : Kernel npages) (curenv : EnvIdx) (ambient : Ambient) :
    Syscall → Option (Outcome × Kernel npages)
  | .cputs s len => sysCputs k curenv s len
  | .cgetc => some (.returns ambient.device, k)
  | .getenvid => some (.returns (sysGetenvid k curenv), k)
  | .envDestroy envid => sysEnvDestroy k curenv envid
  | .pageAlloc envid va perm => returning (sysPageAlloc k curenv envid va perm)
  | .pageMap srcenvid srcva dstenvid dstva perm =>
    returning (sysPageMap k curenv srcenvid srcva dstenvid dstva perm)
  | .pageUnmap envid va => returning (sysPageUnmap k curenv envid va)
  | .exofork => returning (some (sysExofork k curenv))
  | .envSetStatus envid status => returning (some (sysEnvSetStatus k curenv envid status))
  | .envSetTrapframe envid tf => returning (sysEnvSetTrapframe k curenv envid tf ambient)
  | .envSetPgfaultUpcall envid func =>
    returning (some (sysEnvSetPgfaultUpcall k curenv envid func))
  | .yield => some (.yields, k)
  | .ipcTrySend envid value srcva perm =>
    returning (sysIpcTrySend k curenv envid value srcva perm ambient)
  | .ipcRecv dstva => some (sysIpcRecv k curenv dstva)
  | .timeMsec => some (.returns ambient.device, k)
  | .netTx buf size => sysNetTx k curenv buf size ambient
  | .netRx buf => sysNetRx k curenv buf ambient
  | .noSys => some (.returns (-eNoSys), k)

end Jos
