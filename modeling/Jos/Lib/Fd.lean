import Jos.Foundation.Run
import Jos.Kern.Syscall
import Jos.Lib.Space

/-! The descriptor table of lib/fd.c and `pipe` of lib/pipe.c, in one environment.
The table is nothing but the pages that are mapped at computed addresses. -/

set_option autoImplicit false

namespace Jos

open Foundation Function

namespace Fds

abbrev Va := BitVec 64

def eMaxOpen : Int := 11

abbrev maxFd : Nat := 32
def fdTable : Va := 0xD0000000#64
def fileData : Va := fdTable + BitVec.ofNat 64 (maxFd * pgSize)

/-- INDEX2FD, which converts a negative number as C does. -/
def index2Fd (i : BitVec 32) : Va := fdTable + i.signExtend 64 * BitVec.ofNat 64 pgSize
def index2Data (i : Va) : Va := fileData + i * BitVec.ofNat 64 pgSize

def fd2num (fd : Va) : Va := (fd - fdTable) / BitVec.ofNat 64 pgSize
def fd2data (fd : Va) : Va := index2Data (fd2num fd)

/-- PTE_P|PTE_W|PTE_U|PTE_SHARE -/
def permShare : BitVec 12 := pteP ||| pteW ||| pteU ||| pteShare

def devfileId : BitVec 32 := 0x66#32
def devsockId : BitVec 32 := 0x73#32
def devpipeId : BitVec 32 := 0x70#32
def devconsId : BitVec 32 := 0x63#32

/-- What an environment maps, and the word that each page has where a `struct Fd`
has `fd_dev_id`. The pages from `next` on are not mapped here. -/
structure Files where
  space : Space
  devId : Nat → BitVec 32
  next : Nat

namespace Files

variable (f : Files)

/-- `uvpt[PGNUM(va)]`, when the page table is there. -/
def pte (va : Va) : Option Pte :=
  if f.space.uvpd (va.toNat / ptSize) then f.space.uvpt (vpn va.toNat) else none

/-- `uvpt[PGNUM(va)] & PTE_SYSCALL` -/
def pteSyscallOf (va : Va) : BitVec 12 :=
  ((f.space.uvpt (vpn va.toNat)).elim 0 Pte.perm) &&& pteSyscall

/-- A page that is mapped nowhere in the environment. `room` says whether the kernel
has the pages that the call needs. -/
def sysPageAlloc (room : Bool) (va : Va) (perm : BitVec 12) : Int × Files :=
  if ¬ permValid (perm.setWidth 32) then (-eInval, f)
  else if va.toNat % pgSize ≠ 0 ∨ va.toNat > utop then (-eInval, f)
  else if ¬ room then (-eNoMem, f)
  else (0, { f with
    space := f.space.insert (vpn va.toNat) ⟨f.next, perm ||| pteP⟩
    next := f.next + 1 })

def sysPageMap (room : Bool) (srcva dstva : Va) (perm : BitVec 12) : Int × Files :=
  if ¬ permValid (perm.setWidth 32) then (-eInval, f)
  else if (dstva.toNat % pgSize ≠ 0 ∨ dstva.toNat > utop) ∨
      (srcva.toNat % pgSize ≠ 0 ∨ srcva.toNat > utop) then (-eInval, f)
  else
    match f.space.uvpt (vpn srcva.toNat) with
    | none => (-eInval, f)
    | some entry =>
      if ¬ entry.writable ∧ perm &&& pteW ≠ 0 then (-eInval, f)
      else if ¬ room ∧ ¬ f.space.Reach (vpn dstva.toNat) then (-eNoMem, f)
      else (0, { f with space := f.space.insert (vpn dstva.toNat) ⟨entry.ppn, perm ||| pteP⟩ })

def sysPageUnmap (va : Va) : Int × Files :=
  if va.toNat = 0 ∨ va.toNat ≥ utop ∨ va.toNat % pgSize ≠ 0 then (-eInval, f)
  else (0, { f with space := f.space.remove (vpn va.toNat) })

/-- A store to `fd->fd_dev_id`. -/
def setDevId (fd : Va) (id : BitVec 32) : Files :=
  match f.pte fd with
  | some entry => { f with devId := update f.devId entry.ppn id }
  | none => f

def fdAlloc : Option Va :=
  ((List.range maxFd).find? fun i => (f.pte (index2Fd (BitVec.ofNat 32 i))).isNone).map
    fun i => index2Fd (BitVec.ofNat 32 i)

/-- `none` is -E_INVAL. -/
def fdLookup (fdnum : BitVec 32) : Option Va :=
  if fdnum.toInt < 0 ∨ (maxFd : Int) ≤ fdnum.toInt then none
  else if (f.pte (index2Fd fdnum)).isNone then none
  else some (index2Fd fdnum)

def devpipeClose (fd : Va) : Int × Files :=
  let f := (f.sysPageUnmap fd).2
  f.sysPageUnmap (fd2data fd)

/-- `dev_close` of the device. Those of files, sockets and the console leave the
mappings alone; `answer` is what they return. -/
def devClose (fd : Va) (answer : Int) : Int × Files :=
  let id := f.devId ((f.pte fd).elim 0 Pte.ppn)
  if id = devpipeId then f.devpipeClose fd
  else if id = devfileId ∨ id = devsockId ∨ id = devconsId then (answer, f)
  else (-eInval, f)

/-- `fd_close(fd, 1)` -/
def fdClose (fd : Va) (answer : Int) : Int × Files :=
  match f.fdLookup ((fd2num fd).setWidth 32) with
  | none => (-eInval, f)
  | some fd2 =>
    if fd ≠ fd2 then (0, f)
    else
      let (r, f) := f.devClose fd answer
      (r, (f.sysPageUnmap fd).2)

def close (fdnum : BitVec 32) (answer : Int) : Int × Files :=
  match f.fdLookup fdnum with
  | none => (-eInval, f)
  | some fd => f.fdClose fd answer

def closeAll (answers : Nat → Int) : Files :=
  (List.range maxFd).foldl (fun f i => (f.close (BitVec.ofNat 32 i) (answers i)).2) f

/-- The label `err` of `dup`. -/
def dupErr (newfd nva : Va) (r : Int) : Int × Files :=
  let f := (f.sysPageUnmap newfd).2
  (r, (f.sysPageUnmap nva).2)

/-- `dup` from the second `sys_page_map` on. -/
def dupFd (oldfd newfd nva : Va) (newfdnum : BitVec 32) (room : Bool) : Int × Files :=
  let (r, f) := f.sysPageMap room oldfd newfd (f.pteSyscallOf oldfd)
  if r < 0 then f.dupErr newfd nva r else (newfdnum.toInt, f)

def dup (oldfdnum newfdnum : BitVec 32) (answer : Int) (roomData roomFd : Bool) : Int × Files :=
  match f.fdLookup oldfdnum with
  | none => (-eInval, f)
  | some oldfd =>
    let f := (f.close newfdnum answer).2
    let newfd := index2Fd newfdnum
    let ova := fd2data oldfd
    let nva := fd2data newfd
    if (f.pte ova).isSome then
      let (r, f) := f.sysPageMap roomData ova nva (f.pteSyscallOf ova)
      if r < 0 then f.dupErr newfd nva r else f.dupFd oldfd newfd nva newfdnum roomFd
    else f.dupFd oldfd newfd nva newfdnum roomFd

end Files

/-- The devices of which `open`, `socket` and `opencons` make descriptors: one page,
at the number that `fd_alloc` finds. -/
inductive Device where
  | file
  | sock
  | cons
deriving DecidableEq, Repr

def Device.id : Device → BitVec 32
  | .file => devfileId
  | .sock => devsockId
  | .cons => devconsId

namespace Files

variable (f : Files)

/-- An `open` that succeeds as far as the file server is concerned. -/
def opened (device : Device) : Int × Files :=
  match f.fdAlloc with
  | none => (-eMaxOpen, f)
  | some fd =>
    let (r, f) := f.sysPageAlloc true fd permShare
    if r < 0 then (r, f) else ((fd2num fd).toNat, f.setDevId fd device.id)

/-- Which of the calls of `pipe` the kernel has memory for. -/
structure Room where
  fd0 : Bool
  fd1 : Bool
  page : Bool
  map : Bool
deriving DecidableEq, Repr

/-- `pipe` from the data page on: what it returns, and the two numbers that it stores
when it succeeds. -/
def pipeData (fd0 fd1 : Va) (room : Room) : Int × Option (Nat × Nat) × Files :=
  let va := fd2data fd0
  let (r, f) := f.sysPageAlloc room.page va permShare
  if r < 0 then
    -- `err2`
    let f := (f.sysPageUnmap fd1).2
    (r, none, (f.sysPageUnmap fd0).2)
  else
    let (r, f) := f.sysPageMap room.map va (fd2data fd1) permShare
    if r < 0 then
      -- `err3`
      let f := (f.sysPageUnmap va).2
      let f := (f.sysPageUnmap fd1).2
      (r, none, (f.sysPageUnmap fd0).2)
    else
      let f := (f.setDevId fd0 devpipeId).setDevId fd1 devpipeId
      (0, some ((fd2num fd0).toNat, (fd2num fd1).toNat), f)

/-- `pipe` from its second `fd_alloc` on. -/
def pipeFd (fd0 : Va) (room : Room) : Int × Option (Nat × Nat) × Files :=
  match f.fdAlloc with
  | none => (-eMaxOpen, none, (f.sysPageUnmap fd0).2)
  | some fd1 =>
    let (r, f) := f.sysPageAlloc room.fd1 fd1 permShare
    -- `err1`
    if r < 0 then (r, none, (f.sysPageUnmap fd0).2) else f.pipeData fd0 fd1 room

def pipe (room : Room) : Int × Option (Nat × Nat) × Files :=
  match f.fdAlloc with
  | none => (-eMaxOpen, none, f)
  | some fd0 =>
    let (r, f) := f.sysPageAlloc room.fd0 fd0 permShare
    if r < 0 then (r, none, f) else f.pipeFd fd0 room

end Files

/-- The calls of a program on its descriptors, with what the kernel and the devices
answer. -/
inductive Call where
  | open (device : Device)
  | pipe (room : Files.Room)
  | dup (oldfdnum newfdnum : BitVec 32) (answer : Int) (roomData roomFd : Bool)
  | close (fdnum : BitVec 32) (answer : Int)
  | closeAll (answers : Nat → Int)

structure Answer where
  result : Int
  ends : Option (Nat × Nat)

def Files.exec (f : Files) : Call → Answer × Files
  | .open device => let (r, f) := f.opened device; (⟨r, none⟩, f)
  | .pipe room => let (r, ends, f) := f.pipe room; (⟨r, ends⟩, f)
  | .dup oldfdnum newfdnum answer roomData roomFd =>
    let (r, f) := f.dup oldfdnum newfdnum answer roomData roomFd; (⟨r, none⟩, f)
  | .close fdnum answer => let (r, f) := f.close fdnum answer; (⟨r, none⟩, f)
  | .closeAll answers => (⟨0, none⟩, f.closeAll answers)

end Fds

end Jos
