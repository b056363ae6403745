import Jos.Kern.Pmap

/-! The environment table of kern/env.c. Loading `%cr3` changes nothing that is
modelled here, and `curenv` is passed to the functions that read it. -/

set_option autoImplicit false

namespace Jos

variable {npages : Nat}

structure Kernel (npages : Nat) where
  pmap : Pmap npages
  envs : EnvIdx → Env npages
  envFreeList : Option EnvIdx

namespace Kernel

def setEnv (k : Kernel npages) (e : EnvIdx) (env : Env npages) : Kernel npages :=
  { k with envs := Function.update k.envs e env }

def setPmap (k : Kernel npages) (m : Pmap npages) : Kernel npages := { k with pmap := m }

def setStatus (k : Kernel npages) (e : EnvIdx) (status : EnvStatus) : Kernel npages :=
  k.setEnv e { k.envs e with envStatus := status }

end Kernel

/-- Returns `none` for `-E_BAD_ENV`, the only error. -/
def envid2env (k : Kernel npages) (curenv : EnvIdx) (envid : EnvId) (checkperm : Bool) :
    Option EnvIdx :=
  if envid = 0 then some curenv
  else
    let e := envx envid
    if (k.envs e).envStatus = .free ∨ (k.envs e).envId ≠ envid then none
    else if checkperm ∧ e ≠ curenv ∧ (k.envs e).envParentId ≠ (k.envs curenv).envId then none
    else some e

def envGenShift : Nat := 12

def envInit (k : Kernel npages) : Kernel npages :=
  { k with
    envs := fun e =>
      { Env.zeroed npages with
        envLink := if next : e.val + 1 < nenv then some ⟨e.val + 1, next⟩ else none }
    envFreeList := some 0 }

/-- Returns `none` for `-E_NO_MEM`, in which case nothing has changed. -/
def envSetupVm (k : Kernel npages) (e : EnvIdx) : Option (Kernel npages) :=
  match pageAlloc k.pmap true with
  | none => none
  | some (p, m) =>
    let m := m.incRef p
    let m := m.setEntry (p, 1) (m.entry (m.bootPml4e, 1))
    let m := m.setEntry (p, pml4 uvpt) ⟨p, pteP ||| pteW ||| pteU⟩
    some ((k.setPmap m).setEnv e { k.envs e with envPml4e := some p, envCr3 := p.val })

/-- The next identifier of a slot. The addition wraps at 32 bits and the result
is compared as a signed number. -/
def nextEnvId (old : EnvId) (e : EnvIdx) : EnvId :=
  let generation := (old + 1#32 <<< envGenShift) &&& ~~~(BitVec.ofNat 32 (nenv - 1))
  let generation := if generation.toInt ≤ 0 then 1#32 <<< envGenShift else generation
  generation ||| BitVec.ofNat 32 e.val

def newTrapframe : Trapframe :=
  { (default : Trapframe) with
    tfDs := gdUd ||| 3
    tfEs := gdUd ||| 3
    tfSs := gdUd ||| 3
    tfRsp := BitVec.ofNat 64 ustackTop
    tfCs := gdUt ||| 3
    tfEflags := 0 ||| flIf }

def envAlloc (k : Kernel npages) (parentId : EnvId) : Except Int (EnvIdx × Kernel npages) :=
  match k.envFreeList with
  | none => .error (-eNoFreeEnv)
  | some e =>
    match envSetupVm k e with
    | none => .error (-eNoMem)
    | some k =>
      let env := k.envs e
      let env :=
        { env with
          envId := nextEnvId env.envId e
          envParentId := parentId
          envType := .user
          envStatus := .runnable
          envRuns := 0
          envTf := newTrapframe
          envPgfaultUpcall := 0
          envIpcRecving := false }
      .ok (e, { k.setEnv e env with envFreeList := env.envLink })

/-- One round of the loop of `region_alloc` per page. A failed `page_alloc`
panics; the result of `page_insert` is not looked at. -/
def regionAllocLoop (pml4e : Option (Fin npages)) :
    Nat → Nat → Pmap npages → Option (Pmap npages)
  | 0, _, m => some m
  | rounds + 1, va, m =>
    match pageAlloc m true with
    | none => none
    | some (p, m) => do
        let (_, m) ← pageInsert m pml4e p va (pteU ||| pteP ||| pteW)
        regionAllocLoop pml4e rounds (va + pgSize) m

/-- `lenDown` is always 0 in the source, so the length is that of the segment
rounded up past the next page boundary. -/
def regionAlloc (m : Pmap npages) (pml4e : Option (Fin npages)) (va len : Nat) :
    Option (Pmap npages) :=
  regionAllocLoop pml4e ((len + pgSize) / pgSize) (va / pgSize * pgSize) m

/-- The loadable segments of a binary that pass the size test, as their address
and memory size, and its entry point. The bytes copied are not modelled. -/
structure Binary where
  segments : List (Nat × Nat)
  entry : BitVec 64
deriving DecidableEq, Repr

def loadIcode (k : Kernel npages) (e : EnvIdx) (binary : Binary) : Option (Kernel npages) := do
  let pml4e := (k.envs e).envPml4e
  let m ← binary.segments.foldlM (fun m segment => regionAlloc m pml4e segment.1 segment.2) k.pmap
  let m ← regionAlloc m pml4e (ustackTop - pgSize) pgSize
  let env := k.envs e
  return (k.setPmap m).setEnv e { env with envTf := { env.envTf with tfRip := binary.entry } }

def envCreate (k : Kernel npages) (binary : Binary) (type : EnvType) : Option (Kernel npages) :=
  match envAlloc k 0 with
  | .error _ => none
  | .ok (e, k) =>
    let env := { k.envs e with envType := type }
    let env :=
      if type = .fs then
        { env with envTf := { env.envTf with tfEflags := env.envTf.tfEflags ||| flIoplMask } }
      else env
    loadIcode (k.setEnv e env) e binary

/-- The page-table entries of one page table, except the last: the bound of the
loop is `PTX(~0)`. -/
def freePtes (pml4e : Option (Fin npages)) (pt : Fin npages) (pdpeIndex pdeno : Index)
    (m : Pmap npages) : Option (Pmap npages) :=
  (List.range 511).foldlM (fun m pteno =>
    if (m.mem pt (Fin.ofNat 512 pteno)).present then
      pageRemove m pml4e (pgAddr 0 pdpeIndex pdeno (Fin.ofNat 512 pteno) 0)
    else some m) m

/-- One page directory entry: the mappings of its page table, then the table. -/
def freePde (pml4e : Option (Fin npages)) (pgdir : Fin npages) (pdpeIndex pdeno : Index)
    (m : Pmap npages) : Option (Pmap npages) :=
  if (m.mem pgdir pdeno).present then do
    let pa := (m.mem pgdir pdeno).ppn
    let pt ← kaddr npages pa
    let m ← freePtes pml4e pt pdpeIndex pdeno m
    let m := m.setEntry (pgdir, pdeno) 0
    let page ← pa2page npages pa
    pageDecref m page
  else some m

/-- `PDX(UTOP)` for the last of the four entries looked at, `PDX(0xFFFFFFFF)`
for the others. -/
def pdenoLimit (pdpeIndex : Index) : Nat :=
  if pdpeIndex = 3 then (pdx utop).val else (pdx 0xFFFFFFFF).val

/-- One page directory pointer entry: its page tables, then the directory. -/
def freePdpe (pml4e : Option (Fin npages)) (pdpt : Fin npages) (pdpeIndex : Index)
    (m : Pmap npages) : Option (Pmap npages) :=
  if (m.mem pdpt pdpeIndex).present then do
    let pgdir ← kaddr npages (m.mem pdpt pdpeIndex).ppn
    let m ← (List.range (pdenoLimit pdpeIndex)).foldlM
      (fun m pdeno => freePde pml4e pgdir pdpeIndex (Fin.ofNat 512 pdeno) m) m
    let pa := (m.mem pdpt pdpeIndex).ppn
    let m := m.setEntry (pdpt, pdpeIndex) 0
    let page ← pa2page npages pa
    pageDecref m page
  else some m

/-- Reading `e->env_pml4e[0]` of an environment without a PML4 faults. When
that entry is empty, the source goes on with physical page 0 as the PDPT. -/
def envFree (k : Kernel npages) (e : EnvIdx) : Option (Kernel npages) := do
  let env := k.envs e
  let pml4e ← env.envPml4e
  let pdpt ← kaddr npages (k.pmap.mem pml4e 0).ppn
  let m ← ([0, 1, 2, 3] : List Index).foldlM (fun m i => freePdpe (some pml4e) pdpt i m) k.pmap
  let page ← pa2page npages (m.mem pml4e 0).ppn
  let m ← pageDecref m page
  let m := m.setEntry (pml4e, 0) 0
  let root ← pa2page npages env.envCr3
  let m ← pageDecref m root
  let k := (k.setPmap m).setEnv e
    { env with
      envPml4e := none
      envCr3 := 0
      envStatus := .free
      envLink := k.envFreeList }
  return { k with envFreeList := some e }

/-- Whether `env_destroy` returns to its caller, or has torn down `curenv` and
gone on to the scheduler. -/
inductive Destroyed where
  | returns
  | exits
deriving DecidableEq, Repr

def envDestroy (k : Kernel npages) (curenv e : EnvIdx) :
    Option (Destroyed × Kernel npages) :=
  if (k.envs e).envStatus = .running ∧ curenv ≠ e then
    some (.returns, k.setStatus e .dying)
  else do
    let k ← envFree k e
    return (if curenv = e then .exits else .returns, k)

end Jos
