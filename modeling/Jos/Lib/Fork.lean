import Jos.Lib.Space

/-! `fork` of lib/fork.c. What `fork` itself and the functions it calls keep on the
stack is left out, and so are the faults that they take there. -/

set_option autoImplicit false

namespace Jos

def ustackPage : Nat := vpn (ustackTop - pgSize)
def uxstackPage : Nat := vpn (uxstackTop - pgSize)

/-- The system calls of `fork`, with the environment 0 written out. -/
inductive ForkCall where
  | exofork
  | pageAlloc (e pn : Nat) (perm : BitVec 12)
  | pageMap (src pn dst q : Nat) (perm : BitVec 12)
  | pageUnmap (e pn : Nat)
  | setUpcall (e : Nat)
  | setStatus (e : Nat)
deriving DecidableEq, Repr

/-- The state of an environment that runs `fork`, and the calls that it has made. -/
structure Forking where
  world : World
  log : List ForkCall

variable (answers : ForkCall → Int)

def Forking.ask (r : Forking) (call : ForkCall) (effect : World → World) : Int × Forking :=
  (answers call, ⟨if answers call < 0 then r.world else effect r.world, r.log ++ [call]⟩)

def Forking.pageAlloc (r : Forking) (e pn : Nat) (perm : BitVec 12) : Int × Forking :=
  r.ask answers (.pageAlloc e pn perm) fun w => w.pageAlloc e pn perm

def Forking.pageMap (r : Forking) (src pn dst q : Nat) (perm : BitVec 12) : Int × Forking :=
  r.ask answers (.pageMap src pn dst q perm) fun w => w.pageMap src pn dst q perm

/-- `if(0 < sys_page_map(...)) panic(...)`. An error is negative. -/
def panicIfPositive (answer : Int × Forking) : Option Forking :=
  if 0 < answer.1 then none else some answer.2

/-- The permission with which `duppage` maps a page into the child. -/
def dupPerm (perm : BitVec 12) : BitVec 12 :=
  let perm := perm &&& pteSyscall
  if perm &&& pteShare ≠ 0 then perm
  else if perm &&& pteW ≠ 0 ∨ perm &&& pteCow ≠ 0 then (perm ||| pteCow) &&& ~~~pteW
  else perm

def Remarked (perm : BitVec 12) : Prop :=
  perm &&& pteSyscall &&& pteShare = 0 ∧
    (perm &&& pteSyscall &&& pteW ≠ 0 ∨ perm &&& pteSyscall &&& pteCow ≠ 0)

instance (perm : BitVec 12) : Decidable (Remarked perm) := inferInstanceAs (Decidable (_ ∧ _))

/-- The permission that the parent has after `duppage`. -/
def markedPerm (perm : BitVec 12) : BitVec 12 :=
  if Remarked perm then dupPerm perm ||| pteP else perm

/-- `duppage`, for an entry of `uvpt` that is present. -/
def duppage (r : Forking) (envid parent pn : Nat) (entry : Pte) : Option Forking :=
  let perm := entry.perm &&& pteSyscall
  if perm &&& pteShare ≠ 0 then panicIfPositive (r.pageMap answers parent pn envid pn perm)
  else if perm &&& pteW ≠ 0 ∨ perm &&& pteCow ≠ 0 then
    let perm := (perm ||| pteCow) &&& ~~~pteW
    (panicIfPositive (r.pageMap answers parent pn envid pn perm)).bind fun r =>
      panicIfPositive (r.pageMap answers parent pn parent pn perm)
  else panicIfPositive (r.pageMap answers parent pn envid pn perm)

/-- The scan of `fork` from the page `pn` downwards. Where a page directory or a
page table is missing, the address goes down by what it covers, and then by one
page more. `none` when a jump wraps around: the next test then reads far outside
of `uvpml4e`. -/
def forkScan (envid parent : Nat) (r : Forking) (pn : Nat) : Option Forking :=
  if pn < vpn utext then some r
  else if (r.world.space parent).uvpml4e (pn / 512 / 512 / 512) = false then none
  else if (r.world.space parent).uvpde (pn / 512 / 512) = false then
    if pn < 512 * 512 + 1 then none else forkScan envid parent r (pn - (512 * 512 + 1))
  else if (r.world.space parent).uvpd (pn / 512) = false then forkScan envid parent r (pn - (512 + 1))
  else
    match (r.world.space parent).uvpt pn with
    | some entry =>
      (duppage answers r envid parent pn entry).bind fun r => forkScan envid parent r (pn - 1)
    | none => forkScan envid parent r (pn - 1)
termination_by pn
decreasing_by
  all_goals
    have low : vpn utext = 2048 := rfl
    omega

def permPrivate : BitVec 12 := pteP ||| pteU ||| pteW

/-- `memmove(to, from, PGSIZE)` between two pages; `none` when one is not mapped,
or the first not writable. -/
def Forking.memmove (r : Forking) (parent target source : Nat) : Option Forking :=
  match (r.world.space parent).uvpt target, (r.world.space parent).uvpt source with
  | some there, some entry =>
    if there.writable then
      some { r with world := r.world.store there.ppn (r.world.mem entry.ppn) }
    else none
  | _, _ => none

/-- `set_pgfault_handler(pgfault)` -/
def setPgfaultHandler (first : Bool) (parent : Nat) (r : Forking) : Option Forking :=
  if first then
    let (result, r) := r.pageAlloc answers parent uxstackPage permPrivate
    if result < 0 then none else some (r.ask answers (.setUpcall parent) id).2
  else some r

/-- What `fork` does for the child after the scan. -/
def forkFinish (child parent : Nat) (r : Forking) : Option Forking :=
  let r := (r.pageAlloc answers child uxstackPage permPrivate).2
  let r := (r.pageAlloc answers child ustackPage permPrivate).2
  let r := (r.pageMap answers child ustackPage parent (vpn pftemp) permPrivate).2
  (r.memmove parent (vpn pftemp) ustackPage).map fun r =>
    let r := (r.ask answers (.pageUnmap parent (vpn pftemp)) fun w => w.remove parent (vpn pftemp)).2
    let r := (r.ask answers (.setUpcall child) id).2
    (r.ask answers (.setStatus child) id).2

/-- `fork` in the parent, which returns the answer of `sys_exofork`; the child
returns 0 from the same call. `first` says that no page fault handler has been
set yet. -/
def fork (first : Bool) (parent : Nat) (w : World) : Option (Int × Forking) :=
  (setPgfaultHandler answers first parent ⟨w, []⟩).bind fun r =>
    let (envid, r) := r.ask answers .exofork fun w => w.create (answers .exofork).toNat
    if envid < 0 then none
    else if envid = 0 then some (0, r)
    else
      (forkScan answers envid.toNat parent r ustackPage).bind fun r =>
        (forkFinish answers envid.toNat parent r).map fun r => (envid, r)

end Jos
