import Jos.Kern.Trap

/-! What the kernel does with the memory of a caller whose buffer has passed the check:
`sys_cputs` prints it (lib/printfmt.c), the network calls of kern/e1000.c copy it. -/

set_option autoImplicit false

namespace Jos

variable {npages : Nat}

/-- The memory of a caller as the kernel sees it. A byte that cannot be read, and a
store that is not allowed, fault in the kernel, which panics. -/
structure UserMemory where
  read : Nat → Option (BitVec 8)
  writes : Nat → Bool

/-- The descriptors of the network card that the kernel looks at next. -/
structure Card where
  /-- Bit 0 of the status of the transmit descriptor. -/
  txFree : Bool
  /-- Bit 0 of the status of the receive descriptor: a packet is there. -/
  rxFilled : Bool
  /-- Bit 1 of the status: the packet ends here. -/
  rxEop : Bool
  rxLength : Nat
deriving DecidableEq, Repr

/-- `%s` of `vprintfmt` from the address `p` on, with the bytes left below the end of
the address space. A byte is read before the precision is looked at. -/
def printString (read : Nat → Option (BitVec 8)) : Nat → Nat → Int → Option Unit
  | 0, _, _ => none
  | left + 1, p, precision =>
    match read p with
    | none => none
    | some ch =>
      if ch = 0 then some ()
      else if precision < 0 then printString read left (p + 1) precision
      else if precision - 1 ≥ 0 then printString read left (p + 1) (precision - 1)
      else some ()

/-- `cprintf` of one string. The address NULL is printed as `(null)`. -/
def cprintf (read : Nat → Option (BitVec 8)) (s : Nat) (precision : Int) : Option Unit :=
  if s = 0 then some () else printString read (2 ^ 64 - s) s precision

def e1000TxdBufferLength : Nat := 0x5EE

/-- The source prints the packet as a string first: `debug` is 1. -/
def pciTransmitPacket (memory : UserMemory) (card : Card) (src n : Nat) : Option Unit := do
  cprintf memory.read src (-1)
  if n > e1000TxdBufferLength ∨ ¬ card.txFree then some ()
  else if (List.range n).all fun i => (memory.read (src + i)).isSome then some ()
  else none

def pciReceivePacket (memory : UserMemory) (card : Card) (dst : Nat) : Option Unit :=
  if ¬ card.rxFilled then some ()
  else if ¬ card.rxEop then none
  else if (List.range card.rxLength).all fun i => memory.writes (dst + i) then some ()
  else none

/-- What a call does with user memory after its check. The precision of `sys_cputs` is
the low half of the length, as an `int`. -/
def userAccess (memory : UserMemory) (card : Card) : Syscall → Option Unit
  | .cputs s len => cprintf memory.read s (BitVec.ofNat 32 len).toInt
  | .netTx buf size => pciTransmitPacket memory card buf size
  | .netRx buf => pciReceivePacket memory card buf
  | _ => some ()

/-- A trap with the accesses to user memory. `pte_store` has no value of its own, and
what it happens to point to must not be looked at. -/
def trapDispatchIn (memory : UserMemory) (card : Card) (k : Kernel npages) (curenv : EnvIdx)
    (ambient : Ambient) : Option (Exit × Kernel npages) := do
  let tf := (k.envs curenv).envTf
  let (exit, k) ← trapDispatch k curenv { ambient with stalePte := none }
  if tf.tfTrapno.toNat = tSyscall ∧ exit = .toTrap then
    userAccess memory card tf.request
  return (exit, k)

end Jos
