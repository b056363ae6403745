import Jos.Foundation.Words
import Jos.Kern.Trap

/-! `page_fault_handler` with the record that it writes on the exception stack. -/

set_option autoImplicit false

namespace Jos

open Foundation

variable {npages : Nat}

abbrev Ram := Nat → BitVec 8

/-- In the order of `struct PushRegs`. -/
def PushRegs.words (regs : PushRegs) : List (BitVec 64) :=
  [regs.regR15, regs.regR14, regs.regR13, regs.regR12, regs.regR11, regs.regR10, regs.regR9,
    regs.regR8, regs.regRsi, regs.regRdi, regs.regRbp, regs.regRdx, regs.regRcx, regs.regRbx,
    regs.regRax]

structure UTrapframe where
  utfFaultVa : BitVec 64
  utfErr : BitVec 64
  utfRegs : PushRegs
  utfRip : BitVec 64
  utfEflags : BitVec 64
  utfRsp : BitVec 64
deriving DecidableEq, Repr

/-- In the order of `struct UTrapframe`, which is packed. -/
def UTrapframe.words (utf : UTrapframe) : List (BitVec 64) :=
  utf.utfFaultVa :: utf.utfErr :: (utf.utfRegs.words ++ [utf.utfRip, utf.utfEflags, utf.utfRsp])

def Trapframe.utrapframe (tf : Trapframe) (faultVa : BitVec 64) : UTrapframe where
  utfFaultVa := faultVa
  utfErr := tf.tfErr
  utfRegs := tf.tfRegs
  utfRip := tf.tfRip
  utfEflags := tf.tfEflags
  utfRsp := tf.tfRsp

/-- The physical address of a byte; 0 where nothing is mapped. -/
def Kernel.physAddr (k : Kernel npages) (e : EnvIdx) (va : Nat) : Nat :=
  match k.pmap.translateIn (k.envs e).envPml4e va with
  | some found => found.ppn * pgSize + va % pgSize
  | none => 0

def Kernel.place (k : Kernel npages) (e : EnvIdx) (va : BitVec 64) (i : Nat) : Nat :=
  k.physAddr e (va + BitVec.ofNat 64 i).toNat

/-- `pageFaultHandler` with its stores. -/
def pageFault (k : Kernel npages) (ram : Ram) (curenv : EnvIdx) (faultVa : BitVec 64) :
    Option (Exit × Kernel npages × Ram) :=
  if (k.envs curenv).envPgfaultUpcall = 0 then
    (destroyCurenv k curenv).map fun (exit, k) => (exit, k, ram)
  else do
    let (passed, k) ← userMemAssert k curenv (uxstackTop - pgSize) pgSize (pteW ||| pteU ||| pteP)
    if ¬ passed then return (.toSchedAfterExit, k, ram)
    else
      let env := k.envs curenv
      let tf := env.envTf
      let rsp := tf.tfRsp.toNat
      let nested := rsp < uxstackTop ∧ rsp > uxstackTop - pgSize
      if nested ∧ rsp - utrapframeSize - 8 < uxstackTop - pgSize then
        (destroyCurenv k curenv).map fun (exit, k) => (exit, k, ram)
      else
        let utf := if nested then rsp - utrapframeSize - 8 else uxstackTop - utrapframeSize
        let found ← k.pmap.translateIn env.envPml4e utf
        if found.writable then
          return (.toUser,
            k.setEnv curenv
              { env with
                envTf :=
                  { tf with
                    tfRip := env.envPgfaultUpcall
                    tfRsp := BitVec.ofNat 64 utf } },
            storeWords ram (k.place curenv (BitVec.ofNat 64 utf)) (tf.utrapframe faultVa).words)
        else none

/-- The stores apart, this is `pageFaultHandler`. -/
theorem pageFault_handler {k : Kernel npages} {ram : Ram} {c : EnvIdx} {faultVa : BitVec 64} :
    (pageFault k ram c faultVa).map (fun (exit, k, _) => (exit, k)) = pageFaultHandler k c := by
  unfold pageFault pageFaultHandler
  split
  · cases destroyCurenv k c <;> rfl
  · cases userMemAssert k c (uxstackTop - pgSize) pgSize (pteW ||| pteU ||| pteP) with
    | none => rfl
    | some asserted =>
      obtain ⟨passed, k₁⟩ := asserted
      simp only [Option.bind_eq_bind, Option.bind_some]
      split
      · rfl
      · split
        · cases destroyCurenv k₁ c <;> rfl
        · cases k₁.pmap.translateIn (k₁.envs c).envPml4e _ with
          | none => rfl
          | some found =>
            simp only [Option.bind_some]
            split <;> rfl

end Jos
