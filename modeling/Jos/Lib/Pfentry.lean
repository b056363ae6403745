import Jos.Kern.Upcall

/-! The way back from a page fault: the instructions of lib/pfentry.S after the call
of the handler, with `POPA_` of kern/macro.h. -/

set_option autoImplicit false

namespace Jos

open Foundation

variable {npages : Nat}

inductive Reg where
  | r15 | r14 | r13 | r12 | r11 | r10 | r9 | r8 | rsi | rdi | rbp | rdx | rcx | rbx | rax
deriving DecidableEq, Repr

def PushRegs.get (regs : PushRegs) : Reg → BitVec 64
  | .r15 => regs.regR15
  | .r14 => regs.regR14
  | .r13 => regs.regR13
  | .r12 => regs.regR12
  | .r11 => regs.regR11
  | .r10 => regs.regR10
  | .r9 => regs.regR9
  | .r8 => regs.regR8
  | .rsi => regs.regRsi
  | .rdi => regs.regRdi
  | .rbp => regs.regRbp
  | .rdx => regs.regRdx
  | .rcx => regs.regRcx
  | .rbx => regs.regRbx
  | .rax => regs.regRax

def PushRegs.set (regs : PushRegs) (value : BitVec 64) : Reg → PushRegs
  | .r15 => { regs with regR15 := value }
  | .r14 => { regs with regR14 := value }
  | .r13 => { regs with regR13 := value }
  | .r12 => { regs with regR12 := value }
  | .r11 => { regs with regR11 := value }
  | .r10 => { regs with regR10 := value }
  | .r9 => { regs with regR9 := value }
  | .r8 => { regs with regR8 := value }
  | .rsi => { regs with regRsi := value }
  | .rdi => { regs with regRdi := value }
  | .rbp => { regs with regRbp := value }
  | .rdx => { regs with regRdx := value }
  | .rcx => { regs with regRcx := value }
  | .rbx => { regs with regRbx := value }
  | .rax => { regs with regRax := value }

/-- What user code sees of the processor, and the memory. RF, which the processor
clears by itself, is not one of the flags here. -/
structure UserCpu where
  regs : PushRegs
  rsp : BitVec 64
  rip : BitVec 64
  eflags : BitVec 64
  ram : Ram

def flStatus : BitVec 64 := 0x8d5#64

def evenParity (x : BitVec 64) : Bool :=
  (List.range 8).foldl (fun even i => even != x.getLsbD i) true

/-- The flags after an addition or a subtraction with the given result. -/
def statusFlags (carry adjust overflow : Bool) (result : BitVec 64) : BitVec 64 :=
  (if carry then 0x001#64 else 0) ||| (if evenParity result then 0x004#64 else 0) |||
    (if adjust then 0x010#64 else 0) ||| (if result = 0 then 0x040#64 else 0) |||
    (if result.msb then 0x080#64 else 0) ||| (if overflow then 0x800#64 else 0)

def addFlags (x y : BitVec 64) : BitVec 64 :=
  statusFlags (BitVec.uaddOverflow x y) (BitVec.uaddOverflow (x.setWidth 4) (y.setWidth 4))
    (BitVec.saddOverflow x y) (x + y)

def subFlags (x y : BitVec 64) : BitVec 64 :=
  statusFlags (BitVec.usubOverflow x y) (BitVec.usubOverflow (x.setWidth 4) (y.setWidth 4))
    (BitVec.ssubOverflow x y) (x - y)

def UserCpu.setStatus (s : UserCpu) (flags : BitVec 64) : UserCpu :=
  { s with eflags := s.eflags &&& ~~~ flStatus ||| flags }

/-- The flags that `popfq` loads in user mode: CF, PF, AF, ZF, SF, TF, DF, OF, NT, AC,
ID, and IF when the I/O privilege level is 3. -/
def popfFlags (eflags : BitVec 64) : BitVec 64 :=
  if eflags &&& flIoplMask = flIoplMask then 0x244dd5#64 ||| flIf else 0x244dd5#64

def Kernel.readable (k : Kernel npages) (e : EnvIdx) (va : BitVec 64) : Bool :=
  (k.pmap.translateIn (k.envs e).envPml4e va.toNat).any Translation.user

def Kernel.writable (k : Kernel npages) (e : EnvIdx) (va : BitVec 64) : Bool :=
  (k.pmap.translateIn (k.envs e).envPml4e va.toNat).any fun found => found.user && found.writable

/-- The load of a quad word; `none` is a page fault. -/
def UserCpu.load (s : UserCpu) (k : Kernel npages) (e : EnvIdx) (va : BitVec 64) :
    Option (BitVec 64) :=
  if (List.range 8).all fun i => k.readable e (va + BitVec.ofNat 64 i) then
    some (loadWord s.ram (k.place e va))
  else none

def UserCpu.store (s : UserCpu) (k : Kernel npages) (e : EnvIdx) (va value : BitVec 64) :
    Option UserCpu :=
  if (List.range 8).all fun i => k.writable e (va + BitVec.ofNat 64 i) then
    some { s with ram := storeWord s.ram (k.place e va) value }
  else none

inductive Instr where
  /-- `movq off(%rsp), dst` -/
  | movFrom (off : BitVec 64) (dst : Reg)
  /-- `movq src, off(%rsp)` -/
  | movTo (src : Reg) (off : BitVec 64)
  /-- `movq src, (base)` -/
  | movAt (src base : Reg)
  | subq (imm : BitVec 64) (dst : Reg)
  /-- `addq imm, %rsp` -/
  | addqRsp (imm : BitVec 64)
  | popfq
  /-- `popq %rsp` -/
  | popqRsp
  | ret
deriving DecidableEq, Repr

def Instr.exec (k : Kernel npages) (e : EnvIdx) (s : UserCpu) : Instr → Option UserCpu
  | .movFrom off dst => do
      let value ← s.load k e (s.rsp + off)
      return { s with regs := s.regs.set value dst }
  | .movTo src off => s.store k e (s.rsp + off) (s.regs.get src)
  | .movAt src base => s.store k e (s.regs.get base) (s.regs.get src)
  | .subq imm dst =>
    let value := s.regs.get dst
    some ({ s with regs := s.regs.set (value - imm) dst }.setStatus (subFlags value imm))
  | .addqRsp imm => some ({ s with rsp := s.rsp + imm }.setStatus (addFlags s.rsp imm))
  | .popfq => do
      let value ← s.load k e s.rsp
      let loaded := popfFlags s.eflags
      return { s with
        rsp := s.rsp + 8
        eflags := value &&& loaded ||| s.eflags &&& ~~~ loaded }
  | .popqRsp => do
      let value ← s.load k e s.rsp
      return { s with rsp := value }
  | .ret => do
      let value ← s.load k e s.rsp
      return { s with rsp := s.rsp + 8, rip := value }

/-- One instruction after the other; `rip` is kept by the last one. -/
def execute (k : Kernel npages) (e : EnvIdx) : List Instr → UserCpu → Option UserCpu
  | [], s => some s
  | instr :: rest, s => (instr.exec k e s).bind (execute k e rest)

/-- `POPA_` -/
def popa : List Instr :=
  [.movFrom 0 .r15, .movFrom 8 .r14, .movFrom 16 .r13, .movFrom 24 .r12, .movFrom 32 .r11,
    .movFrom 40 .r10, .movFrom 48 .r9, .movFrom 56 .r8, .movFrom 64 .rsi, .movFrom 72 .rdi,
    .movFrom 80 .rbp, .movFrom 88 .rdx, .movFrom 96 .rcx, .movFrom 104 .rbx, .movFrom 112 .rax,
    .addqRsp 120]

/-- `_pgfault_upcall` after `call *%rax`. -/
def pgfaultUpcall : List Instr :=
  [.movFrom 136 .rbx, .movFrom 152 .rcx, .subq 8 .rcx, .movAt .rbx .rcx, .movTo .rcx 152,
    .addqRsp 16] ++ popa ++ [.addqRsp 8, .popfq, .popqRsp, .ret]

end Jos
